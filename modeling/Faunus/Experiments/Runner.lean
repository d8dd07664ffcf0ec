import Faunus.Experiments.Dictionaries
import Mathlib.Algebra.Order.Ring.Rat

/-! The runner of the experiments.

Every experiment gets a configuration of its own, made of the defaults and of its
parameters. The dictionaries of the defaults are not copied: they become part of the
configuration, and a key with dots that leads into one of them writes there, where the
next experiment finds it. In the same way the binary stays that of the last experiment
with compile parameters.
-/

set_option autoImplicit false

namespace Faunus.Experiments

/-- A value that is no dictionary; lists and the like are not looked into. -/
inductive Scalar where
  | str (text : String)
  | bool (b : Bool)
  | num (q : ℚ)
  | other (text : String)
  deriving DecidableEq

/-- A key of the file, split at its dots. -/
structure KeyPath where
  init : List String
  last : String
  deriving DecidableEq

abbrev Flags : Type := List (String × Scalar)

structure ExperimentConfig where
  parameters : List (KeyPath × Value Scalar)
  compileParams : Flags

inductive ConfigError where
  | cannotSet (path : KeyPath) (key : String) (level : ℕ)
  | missingFields (fields : List String)
  | invalidIndex
  | distributionNotDict
  | invalidDistributionType
  | cacheNotDict
  | cacheWithoutEnabled
  | cacheEnabledNotBool
  | operationMixNotDict
  | operationMixNotNumbers
  | operationMixSum (total : ℚ)
  deriving DecidableEq

/-! ## modify_config_file -/

/-- The dictionary that the keys lead to, where missing ones are created, or the key and the level at which there is none. -/
def navigate (h : Heap String Scalar) (current level : ℕ) : List String → Heap String Scalar × Except (String × ℕ) ℕ
  | [] => (h, .ok current)
  | key :: rest =>
    match h.get current key with
    | none => navigate ((h.alloc []).put current key (.dict h.length)) h.length (level + 1) rest
    | some (.scalar _) => (h, .error (key, level))
    | some (.dict next) => navigate h next (level + 1) rest

/-- A default that does not fit is left out with a warning. -/
def applyDefault (config : ℕ) (h : Heap String Scalar) (entry : KeyPath × Value Scalar) : Heap String Scalar :=
  match navigate h config 0 entry.1.init with
  | (h, .ok current) => h.put current entry.1.last entry.2
  | (h, .error _) => h

/-- A dictionary is merged with the one it would replace. -/
def setFinal (h : Heap String Scalar) (current : ℕ) (key : String) (value : Value Scalar) : Heap String Scalar :=
  match value, h.get current key with
  | .dict new, some (.dict old) => (h.alloc (Dict.update (h.dict old) (h.dict new))).put current key (.dict h.length)
  | _, _ => h.put current key value

def applyParameters (config : ℕ) (h : Heap String Scalar) :
    List (KeyPath × Value Scalar) → Heap String Scalar × Except ConfigError Unit
  | [] => (h, .ok ())
  | entry :: rest =>
    match navigate h config 0 entry.1.init with
    | (h, .ok current) => applyParameters config (setFinal h current entry.1.last entry.2) rest
    | (h, .error (key, level)) => (h, .error (.cannotSet entry.1 key level))

def requiredFields : List String := ["num_cs", "threads_per_cs", "num_ms", "warmup_inserts", "ops_per_client"]

def checkRequired (h : Heap String Scalar) (config : ℕ) : Except ConfigError Unit :=
  let missing := requiredFields.filter fun field => (h.leafAt (.dict config) [field]).isNone
  if missing = [] then .ok () else .error (.missingFields missing)

def checkIndex (h : Heap String Scalar) (config : ℕ) : Except ConfigError Unit :=
  match h.leafAt (.dict config) ["index"] with
  | none => .ok ()
  | some leaf => if leaf = some (.str "sherman") ∨ leaf = some (.str "faunus") then .ok () else .error .invalidIndex

def checkDistribution (h : Heap String Scalar) (config : ℕ) : Except ConfigError Unit :=
  match h.leafAt (.dict config) ["distribution"] with
  | none => .ok ()
  | some (some _) => .error .distributionNotDict
  | some none =>
    match h.leafAt (.dict config) ["distribution", "type"] with
    | none => .ok ()
    | some leaf => if leaf = some (.str "uniform") ∨ leaf = some (.str "skewed") then .ok () else .error .invalidDistributionType

def checkCache (h : Heap String Scalar) (config : ℕ) : Except ConfigError Unit :=
  match h.leafAt (.dict config) ["cache"] with
  | none => .ok ()
  | some (some _) => .error .cacheNotDict
  | some none =>
    match h.leafAt (.dict config) ["cache", "enabled"] with
    | none => .error .cacheWithoutEnabled
    | some (some (.bool _)) => .ok ()
    | some _ => .error .cacheEnabledNotBool

/-- The sum of the values, where a truth value counts as a number. -/
def mixTotal : List (Option Scalar) → Option ℚ
  | [] => some 0
  | some (.num q) :: rest => (mixTotal rest).map (q + ·)
  | some (.bool b) :: rest => (mixTotal rest).map ((if b then 1 else 0) + ·)
  | _ :: _ => none

def checkOperationMix (h : Heap String Scalar) (config : ℕ) : Except ConfigError Unit :=
  match h.get config "operation_mix" with
  | none => .ok ()
  | some (.scalar _) => .error .operationMixNotDict
  | some (.dict mix) =>
    match mixTotal ((h.dict mix).map fun entry => entry.2.leaf) with
    | none => .error .operationMixNotNumbers
    | some total => if 99 / 100 ≤ total ∧ total ≤ 101 / 100 then .ok () else .error (.operationMixSum total)

def validate (h : Heap String Scalar) (config : ℕ) : Except ConfigError Unit := do
  checkRequired h config
  checkIndex h config
  checkDistribution h config
  checkCache h config
  checkOperationMix h config

abbrev Configuration : Type := List String → Option (Option Scalar)

def modifyConfigFile (defaults : List (KeyPath × Value Scalar)) (h : Heap String Scalar)
    (parameters : List (KeyPath × Value Scalar)) :
    Heap String Scalar × Except ConfigError Configuration :=
  let config := h.length
  let h := defaults.foldl (applyDefault config) (h.alloc [])
  match applyParameters config h parameters with
  | (h, .error error) => (h, .error error)
  | (h, .ok ()) =>
    match validate h config with
    | .error error => (h, .error error)
    | .ok () => (h, .ok (h.leafAt (.dict config)))

/-! ## run_single_experiment -/

/-- What comes of cleaning and building. -/
inductive Build where
  | built
  | cleanFailed
  | buildFailed

structure Runner where
  heap : Heap String Scalar
  binary : Option Flags

def buildFlags (compileParams : Flags) : Flags := compileParams.filter fun param => param.2 ≠ .str "undefined"

def recompileIfNeeded (binary : Option Flags) (compileParams : Flags) (build : Build) : Option Flags × Bool :=
  if compileParams = [] then (binary, true)
  else
    match build with
    | .built => (some (buildFlags compileParams), true)
    | .cleanFailed => (binary, false)
    | .buildFailed => (none, false)

inductive Outcome where
  | recompilationFailed
  | configFailed (error : ConfigError)
  | executes (config : Configuration) (binary : Option Flags)

def runSingleExperiment (defaults : List (KeyPath × Value Scalar)) (s : Runner) (experiment : ExperimentConfig)
    (build : Build) : Runner × Outcome :=
  match recompileIfNeeded s.binary experiment.compileParams build with
  | (binary, false) => (⟨s.heap, binary⟩, .recompilationFailed)
  | (binary, true) =>
    match modifyConfigFile defaults s.heap experiment.parameters with
    | (h, .error error) => (⟨h, binary⟩, .configFailed error)
    | (h, .ok config) => (⟨h, binary⟩, .executes config binary)

/-! ## Writing to the dictionaries of the file -/

/-- No dictionary below the bound is written on the way along the keys, or at its end. -/
def writesOwn (base : ℕ) (h : Heap String Scalar) (current : ℕ) : List String → Bool
  | [] => decide (base ≤ current)
  | key :: rest =>
    match h.get current key with
    | none => decide (base ≤ current) && writesOwn base ((h.alloc []).put current key (.dict h.length)) h.length rest
    | some (.scalar _) => true
    | some (.dict next) => writesOwn base h next rest

def defaultsOwn (base config : ℕ) (h : Heap String Scalar) : List (KeyPath × Value Scalar) → Bool
  | [] => true
  | entry :: rest => writesOwn base h config entry.1.init && defaultsOwn base config (applyDefault config h entry) rest

def parametersOwn (base config : ℕ) (h : Heap String Scalar) : List (KeyPath × Value Scalar) → Bool
  | [] => true
  | entry :: rest =>
    writesOwn base h config entry.1.init &&
      match navigate h config 0 entry.1.init with
      | (h, .ok current) => parametersOwn base config (setFinal h current entry.1.last entry.2) rest
      | (_, .error _) => true

/-- The configuration is made without writing to a dictionary below the bound. -/
def modifiesOwn (base : ℕ) (defaults : List (KeyPath × Value Scalar)) (h : Heap String Scalar)
    (parameters : List (KeyPath × Value Scalar)) : Bool :=
  defaultsOwn base h.length (h.alloc []) defaults && parametersOwn base h.length
    (defaults.foldl (applyDefault h.length) (h.alloc [])) parameters

theorem navigate_keeps {base : ℕ} {h : Heap String Scalar} {current : ℕ} (level : ℕ) {keys : List String} (large : base ≤ h.length)
    (own : writesOwn base h current keys = true) :
    Keeps base h (navigate h current level keys).1 ∧ ∀ found, (navigate h current level keys).2 = .ok found → base ≤ found := by
  induction keys generalizing h current level with
  | nil => exact ⟨.refl base h, fun found same => by cases same; exact of_decide_eq_true own⟩
  | cons key rest ih =>
    unfold writesOwn at own
    unfold navigate
    cases next : h.get current key with
    | none =>
      simp only [next, Bool.and_eq_true, decide_eq_true_eq] at own ⊢
      have created : Keeps base h ((h.alloc []).put current key (.dict h.length)) :=
        (keeps_alloc large []).trans (keeps_put own.1 _ key _)
      obtain ⟨keeps, found⟩ := ih (level + 1) (large.trans created.length) own.2
      exact ⟨created.trans keeps, found⟩
    | some value =>
      cases value with
      | scalar a =>
        simp only
        exact ⟨.refl base h, fun found same => by cases same⟩
      | dict ref =>
        simp only [next] at own ⊢
        exact ih (level + 1) large own

theorem applyDefault_keeps {base config : ℕ} {h : Heap String Scalar} {entry : KeyPath × Value Scalar} (large : base ≤ h.length)
    (own : writesOwn base h config entry.1.init = true) : Keeps base h (applyDefault config h entry) := by
  obtain ⟨keeps, found⟩ := navigate_keeps 0 large own
  unfold applyDefault
  cases arrived : navigate h config 0 entry.1.init with
  | mk h' result =>
    rw [arrived] at keeps found
    cases result with
    | error _ => exact keeps
    | ok current => exact keeps.trans (keeps_put (found current rfl) h' _ _)

theorem setFinal_keeps {base current : ℕ} {h : Heap String Scalar} (large : base ≤ h.length) (own : base ≤ current)
    (key : String) (value : Value Scalar) :
    Keeps base h (setFinal h current key value) := by
  unfold setFinal
  split
  · exact (keeps_alloc large _).trans (keeps_put own _ _ _)
  · exact keeps_put own h key _

theorem foldl_applyDefault_keeps {base config : ℕ} {h : Heap String Scalar} {defaults : List (KeyPath × Value Scalar)}
    (large : base ≤ h.length)
    (own : defaultsOwn base config h defaults = true) : Keeps base h (defaults.foldl (applyDefault config) h) := by
  induction defaults generalizing h with
  | nil => exact .refl base h
  | cons entry rest ih =>
    rw [defaultsOwn, Bool.and_eq_true] at own
    have keeps := applyDefault_keeps large own.1
    exact keeps.trans (ih (large.trans keeps.length) own.2)

theorem applyParameters_keeps {base config : ℕ} {h : Heap String Scalar} {parameters : List (KeyPath × Value Scalar)}
    (large : base ≤ h.length)
    (own : parametersOwn base config h parameters = true) : Keeps base h (applyParameters config h parameters).1 := by
  induction parameters generalizing h with
  | nil => exact .refl base h
  | cons entry rest ih =>
    rw [parametersOwn, Bool.and_eq_true] at own
    obtain ⟨keeps, found⟩ := navigate_keeps 0 large own.1
    unfold applyParameters
    cases arrived : navigate h config 0 entry.1.init with
    | mk h' result =>
      rw [arrived] at keeps found own
      cases result with
      | error _ => exact keeps
      | ok current =>
        have written := setFinal_keeps (large.trans keeps.length) (found current rfl) entry.1.last entry.2
        exact keeps.trans (written.trans (ih ((large.trans keeps.length).trans written.length) own.2))

theorem modifyConfigFile_heap (defaults : List (KeyPath × Value Scalar)) (h : Heap String Scalar)
    (parameters : List (KeyPath × Value Scalar)) :
    (modifyConfigFile defaults h parameters).1 =
    (applyParameters h.length (defaults.foldl (applyDefault h.length) (h.alloc [])) parameters).1 := by
  simp only [modifyConfigFile]
  split
  · rename_i applied
    rw [applied]
  · rename_i applied
    rw [applied]
    split <;> rfl

theorem modifyConfigFile_keeps {base : ℕ} {defaults : List (KeyPath × Value Scalar)} {h : Heap String Scalar}
    {parameters : List (KeyPath × Value Scalar)}
    (large : base ≤ h.length) (own : modifiesOwn base defaults h parameters = true) :
    Keeps base h (modifyConfigFile defaults h parameters).1 := by
  rw [modifiesOwn, Bool.and_eq_true] at own
  have created := keeps_alloc large ([] : Dict String Scalar)
  have filled := foldl_applyDefault_keeps (large.trans created.length) own.1
  rw [modifyConfigFile_heap]
  exact created.trans (filled.trans (applyParameters_keeps ((large.trans created.length).trans filled.length) own.2))

/-! ## Configurations do not depend on where the dictionaries lie -/

section
variable {base up : ℕ} {h h' : Heap String Scalar} (shifted : Shifted base up h h')
include shifted

theorem navigate_shift (current level : ℕ) (keys : List String) :
    Shifted base up (navigate h current level keys).1 (navigate h' (shiftRef base up current) level keys).1 ∧
      (navigate h' (shiftRef base up current) level keys).2 = (navigate h current level keys).2.map (shiftRef base up) := by
  induction keys generalizing h h' current level with
  | nil => exact ⟨shifted, rfl⟩
  | cons key rest ih =>
    have next := shifted.get current key
    unfold navigate
    cases found : h.get current key with
    | none =>
      simp only [next, found, Option.map_none]
      have created := (shifted.alloc []).put current key (.dict h.length)
      have same := ih created h.length (level + 1)
      simp only [Value.shift, shifted.next] at same
      exact same
    | some value =>
      cases value with
      | scalar a =>
        simp only [next, found, Option.map_some, Value.shift]
        exact ⟨shifted, rfl⟩
      | dict ref =>
        simp only [next, found, Option.map_some, Value.shift]
        exact ih shifted ref (level + 1)

theorem applyDefault_shift (config : ℕ) {entry : KeyPath × Value Scalar} (below : entry.2.Below base) :
    Shifted base up (applyDefault config h entry) (applyDefault (shiftRef base up config) h' entry) := by
  obtain ⟨same, found⟩ := navigate_shift shifted config 0 entry.1.init
  unfold applyDefault
  cases arrived : navigate h config 0 entry.1.init with
  | mk g result =>
    cases arrived' : navigate h' (shiftRef base up config) 0 entry.1.init with
    | mk g' result' =>
      rw [arrived, arrived'] at same found
      cases result with
      | error _ =>
        rw [show result' = _ from found]
        exact same
      | ok current =>
        rw [show result' = _ from found]
        have put := same.put current entry.1.last entry.2
        rw [below.shift up] at put
        exact put

theorem setFinal_shift (current : ℕ) (key : String) {value : Value Scalar} (below : value.Below base) :
    Shifted base up (setFinal h current key value) (setFinal h' (shiftRef base up current) key value) := by
  have plain := shifted.put current key value
  rw [below.shift up] at plain
  have old := shifted.get current key
  cases value with
  | scalar a => exact plain
  | dict new =>
    cases found : h.get current key with
    | none =>
      rw [found] at old
      simp only [setFinal, found, old, Option.map_none]
      exact plain
    | some value =>
      rw [found] at old
      cases value with
      | scalar a =>
        simp only [setFinal, found, old, Option.map_some, Value.shift]
        exact plain
      | dict ref =>
        simp only [setFinal, found, old, Option.map_some, Value.shift]
        have merged := (shifted.alloc (Dict.update (h.dict ref) (h.dict new))).put current key (.dict h.length)
        rw [← Dict.update_shift, ← shifted.dict, ← shifted.dict, shiftRef_of_lt below] at merged
        simp only [Value.shift, shifted.next] at merged
        exact merged

theorem foldl_applyDefault_shift (config : ℕ) {defaults : List (KeyPath × Value Scalar)}
    (below : ∀ entry ∈ defaults, entry.2.Below base) :
    Shifted base up (defaults.foldl (applyDefault config) h) (defaults.foldl (applyDefault (shiftRef base up config)) h') := by
  induction defaults generalizing h h' with
  | nil => exact shifted
  | cons entry rest ih =>
    obtain ⟨first, others⟩ := List.forall_mem_cons.1 below
    exact ih (applyDefault_shift shifted config first) others

theorem applyParameters_shift (config : ℕ) {parameters : List (KeyPath × Value Scalar)}
    (below : ∀ entry ∈ parameters, entry.2.Below base) :
    Shifted base up (applyParameters config h parameters).1 (applyParameters (shiftRef base up config) h' parameters).1 ∧
      (applyParameters (shiftRef base up config) h' parameters).2 = (applyParameters config h parameters).2 := by
  induction parameters generalizing h h' with
  | nil => exact ⟨shifted, rfl⟩
  | cons entry rest ih =>
    obtain ⟨first, others⟩ := List.forall_mem_cons.1 below
    obtain ⟨same, found⟩ := navigate_shift shifted config 0 entry.1.init
    unfold applyParameters
    cases arrived : navigate h config 0 entry.1.init with
    | mk g result =>
      cases arrived' : navigate h' (shiftRef base up config) 0 entry.1.init with
      | mk g' result' =>
        rw [arrived, arrived'] at same found
        cases result with
        | error _ =>
          rw [show result' = _ from found]
          exact ⟨same, rfl⟩
        | ok current =>
          rw [show result' = _ from found]
          exact ih (setFinal_shift same current entry.1.last first) others

theorem leafAt_shift (config : ℕ) : h'.leafAt (.dict (shiftRef base up config)) = h.leafAt (.dict config) := by
  funext path
  exact shifted.leafAt (.dict config) path

theorem checkOperationMix_shift (config : ℕ) : checkOperationMix h' (shiftRef base up config) = checkOperationMix h config := by
  unfold checkOperationMix
  rw [shifted.get]
  cases h.get config "operation_mix" with
  | none => rfl
  | some value =>
    cases value with
    | scalar a => rfl
    | dict mix =>
      have leaves : (h'.dict (shiftRef base up mix)).map (fun entry => entry.2.leaf) = (h.dict mix).map fun entry =>
        entry.2.leaf := by
        rw [shifted.dict, Dict.shift, List.map_map]
        simp [Function.comp_def]
      simp only [Option.map_some, Value.shift, leaves]

theorem validate_shift (config : ℕ) : validate h' (shiftRef base up config) = validate h config := by
  simp only [validate, checkRequired, checkIndex, checkDistribution, checkCache, leafAt_shift shifted,
    checkOperationMix_shift shifted]

theorem modifyConfigFile_shift {defaults parameters : List (KeyPath × Value Scalar)}
    (defaultsBelow : ∀ entry ∈ defaults, entry.2.Below base) (parametersBelow : ∀ entry ∈ parameters, entry.2.Below base) :
    (modifyConfigFile defaults h' parameters).2 = (modifyConfigFile defaults h parameters).2 := by
  have created : Shifted base up (h.alloc []) (h'.alloc []) := shifted.alloc []
  have filled := foldl_applyDefault_shift created h.length defaultsBelow
  obtain ⟨same, result⟩ := applyParameters_shift filled h.length parametersBelow
  rw [shifted.next] at same result
  unfold modifyConfigFile
  cases applied : applyParameters h.length (defaults.foldl (applyDefault h.length) (h.alloc [])) parameters with
  | mk g outcome =>
    cases applied' : applyParameters h'.length (defaults.foldl (applyDefault h'.length) (h'.alloc [])) parameters with
    | mk g' outcome' =>
      rw [applied, applied'] at same result
      have config : shiftRef base up h.length = h'.length := shifted.next
      have valid : validate g' h'.length = validate g h.length := config ▸ validate_shift same h.length
      have leaves : g'.leafAt (.dict h'.length) = g.leafAt (.dict h.length) := config ▸ leafAt_shift same h.length
      cases result
      simp only [applied, applied']
      cases outcome with
      | error error => rfl
      | ok done =>
        simp only [valid, leaves]
        cases validate g h.length with
        | error error => rfl
        | ok done => rfl

end

/-! ## Series of experiments -/

/-- The runner with the configuration file it has loaded, and the experiments it runs. -/
structure Series where
  start : Runner
  defaults : List (KeyPath × Value Scalar)
  experiments : List (ExperimentConfig × Build)
  closed : start.heap.Closed
  defaultsBelow : ∀ entry ∈ defaults, entry.2.Below start.heap.length
  parametersBelow : ∀ experiment ∈ experiments, ∀ entry ∈ experiment.1.parameters, entry.2.Below start.heap.length

namespace Series

def run (series : Series) (s : Runner) (experiment : ExperimentConfig × Build) : Runner × Outcome :=
  runSingleExperiment series.defaults s experiment.1 experiment.2

/-- The experiment has a binary of its own or the one of the start, and writes to no dictionary of the file. -/
def Separate (series : Series) (s : Runner) (experiment : ExperimentConfig × Build) : Prop :=
  (experiment.1.compileParams ≠ [] ∨ s.binary = series.start.binary) ∧
    ((recompileIfNeeded s.binary experiment.1.compileParams experiment.2).2 = true →
      modifiesOwn series.start.heap.length series.defaults s.heap experiment.1.parameters = true)

/-- All experiments meet the condition in the state in which they are run. -/
def AllSeparate (series : Series) : Runner → List (ExperimentConfig × Build) → Prop
  | _, [] => True
  | s, experiment :: rest => series.Separate s experiment ∧ series.AllSeparate (series.run s experiment).1 rest

/-- Every experiment has the outcome it has when it is run first. -/
def AllIndependent (series : Series) : Runner → List (ExperimentConfig × Build) → Prop
  | _, [] => True
  | s, experiment :: rest =>
    (series.run s experiment).2 = (series.run series.start experiment).2 ∧ series.AllIndependent (series.run s experiment).1 rest

theorem recompileIfNeeded_eq {binary binary' : Option Flags} {compileParams : Flags} (build : Build)
    (own : compileParams ≠ [] ∨ binary = binary') :
    (recompileIfNeeded binary compileParams build).2 = (recompileIfNeeded binary' compileParams build).2 ∧
      ((recompileIfNeeded binary' compileParams build).2 = true →
        (recompileIfNeeded binary compileParams build).1 = (recompileIfNeeded binary' compileParams build).1) := by
  rcases own with some | rfl
  · simp only [recompileIfNeeded, if_neg some]
    cases build with
    | built => exact ⟨rfl, fun _ => rfl⟩
    | cleanFailed => exact ⟨rfl, fun built => nomatch built⟩
    | buildFailed => exact ⟨rfl, fun built => nomatch built⟩
  · exact ⟨rfl, fun _ => rfl⟩

section
variable {series : Series} {s : Runner} (kept : Keeps series.start.heap.length series.start.heap s.heap)
  {experiment : ExperimentConfig × Build} (separate : series.Separate s experiment)
include kept separate

theorem run_keeps : Keeps series.start.heap.length series.start.heap (series.run s experiment).1.heap := by
  -- an experiment that meets the condition leaves the dictionaries of the file as they are
  unfold run runSingleExperiment
  cases recompiled : recompileIfNeeded s.binary experiment.1.compileParams experiment.2 with
  | mk binary success =>
    cases success with
    | false => exact kept
    | true =>
      have own := separate.2 (congrArg Prod.snd recompiled)
      have modified := kept.trans (modifyConfigFile_keeps kept.length own)
      cases made : modifyConfigFile series.defaults s.heap experiment.1.parameters with
      | mk h result =>
        rw [made] at modified
        cases result with
        | error error => exact modified
        | ok config => exact modified

theorem run_outcome (parametersBelow : ∀ entry ∈ experiment.1.parameters, entry.2.Below series.start.heap.length) :
    (series.run s experiment).2 = (series.run series.start experiment).2 := by
  have config := modifyConfigFile_shift (kept.shifted series.closed) series.defaultsBelow parametersBelow
  obtain ⟨success, binary⟩ := recompileIfNeeded_eq experiment.2 separate.1
  unfold run runSingleExperiment
  cases recompiled : recompileIfNeeded s.binary experiment.1.compileParams experiment.2 with
  | mk flags built =>
    cases recompiled' : recompileIfNeeded series.start.binary experiment.1.compileParams experiment.2 with
    | mk flags' built' =>
      rw [recompiled, recompiled'] at success binary
      cases success
      cases built with
      | false => rfl
      | true =>
        cases binary rfl
        cases made : modifyConfigFile series.defaults s.heap experiment.1.parameters with
        | mk h result =>
          cases made' : modifyConfigFile series.defaults series.start.heap experiment.1.parameters with
          | mk h' result' =>
            rw [made, made'] at config
            cases config
            cases result with
            | error error => rfl
            | ok config => rfl

end

theorem allIndependent_of_keeps {series : Series} {s : Runner} {experiments : List (ExperimentConfig × Build)}
    (kept : Keeps series.start.heap.length series.start.heap s.heap) (separate : series.AllSeparate s experiments)
    (below : ∀ experiment ∈ experiments, ∀ entry ∈ experiment.1.parameters, entry.2.Below series.start.heap.length) :
    series.AllIndependent s experiments := by
  induction experiments generalizing s with
  | nil => trivial
  | cons experiment rest ih =>
    obtain ⟨first, others⟩ := List.forall_mem_cons.1 below
    exact ⟨run_outcome kept separate.1 first, ih (run_keeps kept separate.1) separate.2 others⟩

/-- Experiments that all meet the condition do not depend on each other. -/
theorem experiments_independent {series : Series} (separate : series.AllSeparate series.start series.experiments) :
    series.AllIndependent series.start series.experiments :=
  allIndependent_of_keeps (.refl _ _) separate series.parametersBelow

/-- The required fields and a dictionary for the distribution. -/
def plainDefaults : List (KeyPath × Value Scalar) :=
  requiredFields.map (fun field => (⟨[], field⟩, .scalar (.num 1))) ++ [(⟨[], "distribution"⟩, .dict 0)]

/-- The first experiment has a dictionary for the distribution, the second has no parameters. -/
def mergedFirst : Series where
  start := ⟨[[("type", .scalar (.str "uniform"))], [("type", .scalar (.str "skewed"))]], none⟩
  defaults := plainDefaults
  experiments := [(⟨[(⟨[], "distribution"⟩, .dict 1)], []⟩, .built), (⟨[], []⟩, .built)]
  closed := by decide
  defaultsBelow := by decide
  parametersBelow := by decide

theorem experiments_independent_merged : mergedFirst.AllIndependent mergedFirst.start mergedFirst.experiments :=
  experiments_independent ⟨⟨.inr rfl, fun _ => by decide⟩, ⟨.inr rfl, fun _ => by decide⟩, trivial⟩

/-- The first experiment sets the type of the distribution, the second has no parameters. -/
def skewedFirst : Series where
  start := ⟨[[("type", .scalar (.str "uniform"))]], none⟩
  defaults := plainDefaults
  experiments := [(⟨[(⟨["distribution"], "type"⟩, .scalar (.str "skewed"))], []⟩, .built), (⟨[], []⟩, .built)]
  closed := by decide
  defaultsBelow := by decide
  parametersBelow := by decide

/-- The type of the distribution in the configuration of an experiment that is executed. -/
def distributionType : Outcome → Option (Option Scalar)
  | .executes config _ => config ["distribution", "type"]
  | _ => none

/-- The second experiment has the distribution of the first. -/
theorem experiments_dependent_skewed : ¬ ∀ series : Series, series.AllIndependent series.start series.experiments := by
  intro claimed
  have second := congrArg distributionType (claimed skewedFirst).2.1
  exact absurd second (by decide)

end Series

end Faunus.Experiments
