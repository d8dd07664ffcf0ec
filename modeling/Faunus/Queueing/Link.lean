import Mathlib.Algebra.Order.BigOperators.Group.List
import Mathlib.Data.List.Basic
import Mathlib.Order.Lattice

/-! A link that serves one job after the other.

A job starts when it is asked for, or when the job before it is finished. Times are
natural numbers.
-/

set_option autoImplicit false

namespace Queueing

structure Job where
  asked : Nat
  start : Nat
  finish : Nat

/-- The jobs of a link, newest first, with the time from which it is free. -/
inductive Served : List Job → Nat → Prop where
  | none : Served [] 0
  | serve {jobs : List Job} {free : Nat} {j : Job} : Served jobs free → j.start = max j.asked free → j.start ≤ j.finish →
      Served (j :: jobs) j.finish

variable {jobs : List Job} {free x y : Nat}

theorem Served.finish_le (served : Served jobs free) : ∀ job ∈ jobs, job.finish ≤ free := by
  induction served with
  | none => simp
  | @serve jobs free job _ start runs ih =>
    intro other inside
    rcases List.mem_cons.1 inside with rfl | older
    · exact Nat.le_refl _
    · have := ih other older
      omega

theorem Served.apart (served : Served jobs free) : jobs.Pairwise fun newer older => older.finish ≤ newer.start := by
  induction served with
  | none => exact .nil
  | @serve jobs free job before start runs ih =>
    refine .cons (fun older inside => ?_) ih
    have := before.finish_le older inside
    omega

/-- The work that is done within a window. -/
def work (x y : Nat) : List Job → Nat
  | [] => 0
  | job :: jobs => (if x.ble job.start && job.finish.ble y then job.finish - job.start else 0) + work x y jobs

theorem work_cons (x y : Nat) (job : Job) (jobs : List Job) :
    work x y (job :: jobs) = (if x ≤ job.start ∧ job.finish ≤ y then job.finish - job.start else 0) + work x y jobs := by
  by_cases inside : x ≤ job.start ∧ job.finish ≤ y
  · simp [work, inside]
  · rw [if_neg inside, work, if_neg (by simpa using inside)]

/-- A link does no more work in a window than the window is long. -/
theorem Served.work_le (served : Served jobs free) : work x y jobs ≤ min free y - x := by
  induction served with
  | none => exact Nat.zero_le _
  | @serve jobs free job before start runs ih =>
    rw [work_cons]
    split
    · omega
    · omega

end Queueing
