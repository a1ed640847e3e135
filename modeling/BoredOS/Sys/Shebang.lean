import BoredOS.Sys.Exec.Model

/-!
# Interpreters of Scripts

A file that begins with `#!` is run by `process_create_elf` and `process_exec_replace_current`
through a call of themselves for the interpreter it names. A static counter refuses the fifth level:

    if (depth >= 4) { depth = 0; return; }
    depth++;  …  depth--;

The refusal stores 0, and the four calls that wait for it count down from there. The next call
begins at -4 and nests nine deep.
-/

namespace BoredOS.Sys.Shebang

open Exec List

/-- What a call leaves: the counter, whether the limit refused it, and how deep it nested. -/
structure Outcome where
  depth : Int
  refused : Bool
  levels : ℕ
  deriving DecidableEq

/-- Both functions, as far as the counter goes, for the interpreters `interp`. -/
def nest (interp : Path → Option Path) (depth : Int) (x : Path) : Outcome :=
  match interp x with
  | none => ⟨depth, false, 1⟩
  | some y =>
    if 4 ≤ depth then ⟨0, true, 1⟩
    else
      let r := nest interp (depth + 1) y
      ⟨r.depth - 1, r.refused, r.levels + 1⟩
termination_by (4 - depth).toNat

/-- `spawn_shebang_depth` and `shebang_depth`. -/
structure Depths where
  spawn : Int
  exec : Int
  deriving DecidableEq

/-- A call, with what the files are when it is made; `admits` is whether it gets to read one. -/
structure Call where
  isExec : Bool
  files : Files
  admits : Path → Bool
  path : Path

/-- The interpreter that a file names. -/
def Call.interp (c : Call) (x : Path) : Option Path :=
  if c.admits x = true then (shebang (scriptHeader c.files x)).map Prod.fst else none

def Call.outcome (c : Call) (d : Depths) : Outcome :=
  nest c.interp (if c.isExec = true then d.exec else d.spawn) c.path

def Call.depths (c : Call) (d : Depths) : Depths :=
  if c.isExec = true then { d with exec := (c.outcome d).depth }
  else { d with spawn := (c.outcome d).depth }

/-- The chain of scripts from `x` on has more than `n` files. -/
def Longer (interp : Path → Option Path) : ℕ → Path → Prop
  | 0, x => ∃ y, interp x = some y
  | n + 1, x => ∃ y, interp x = some y ∧ Longer interp n y

/-- Every call nests at most five deep, is refused exactly if its chain is too long, and leaves both
counters at 0. -/
def Bounded : Depths → List Call → Prop
  | _, [] => True
  | d, c :: calls =>
    (c.outcome d).levels ≤ 5 ∧ ((c.outcome d).refused = true ↔ Longer c.interp 4 c.path) ∧
      c.depths d = ⟨0, 0⟩ ∧ Bounded (c.depths d) calls

/-- A call that may go down `n` times: what it leaves if the limit stops it, and if not. -/
theorem nest_spec (interp : Path → Option Path) (n : ℕ) (x : Path) :
    (Longer interp n x → nest interp (4 - n) x = ⟨-n, true, n + 1⟩) ∧
      (¬ Longer interp n x →
        ∃ levels, nest interp (4 - n) x = ⟨4 - n, false, levels⟩ ∧ levels ≤ n + 1) := by
  induction n generalizing x with
  | zero =>
    unfold nest Longer
    cases interp x with
    | none => simp
    | some => simp
  | succ n ih =>
    unfold nest Longer
    cases interp x with
    | none => simp
    | some y =>
      have hdepth : ¬ (4 : Int) ≤ 4 - (n + 1 : ℕ) := by omega
      have hnext : (4 : Int) - (n + 1 : ℕ) + 1 = 4 - n := by omega
      obtain ⟨hlong, hshort⟩ := ih y
      simp only [if_neg hdepth, hnext, Option.some.injEq, exists_eq_left']
      refine ⟨fun h => ?_, fun h => ?_⟩
      · rw [hlong h]
        simp only [Outcome.mk.injEq, and_true]
        omega
      · obtain ⟨levels, heq, hle⟩ := hshort h
        rw [heq]
        refine ⟨levels + 1, ?_, by omega⟩
        simp only [Outcome.mk.injEq, and_true]
        omega

/-- The calls of a history keep the bounds exactly if none of them has a chain that is too long. -/
theorem shebang_bounded_iff (calls : List Call) :
    Bounded ⟨0, 0⟩ calls ↔ ∀ c ∈ calls, ¬ Longer c.interp 4 c.path := by
  induction calls with
  | nil => simp [Bounded]
  | cons c calls ih =>
    have houtcome : c.outcome ⟨0, 0⟩ = nest c.interp (4 - (4 : ℕ)) c.path := by
      unfold Call.outcome
      split <;> rfl
    obtain ⟨hlong, hshort⟩ := nest_spec c.interp 4 c.path
    rw [forall_mem_cons, ← ih, Bounded]
    by_cases h : Longer c.interp 4 c.path
    · -- the four waiting calls count down from 0
      refine iff_of_false (fun hall => ?_) fun hall => hall.1 h
      have hzero := hall.2.2.1
      rw [Call.depths, houtcome, hlong h] at hzero
      split at hzero <;> simp at hzero
    · obtain ⟨levels, heq, hle⟩ := hshort h
      have hdepths : c.depths ⟨0, 0⟩ = ⟨0, 0⟩ := by
        rw [Call.depths, houtcome, heq]
        split <;> rfl
      rw [hdepths, houtcome, heq]
      exact ⟨fun hall => ⟨h, hall.2.2.2⟩,
        fun hall => ⟨hle, iff_of_false Bool.false_ne_true h, rfl, hall.2⟩⟩

def selfCall : Call where
  isExec := false
  files := ⟨fun _ => true, fun _ => false, fun _ => none, fun _ _ => true,
    fun _ _ _ => [35, 33, 47, 115], fun _ => false⟩
  admits := fun _ => true
  path := [47, 115]

/-- The second time it nests nine deep. -/
theorem shebang_deeper : (selfCall.outcome (selfCall.depths ⟨0, 0⟩)).levels = 9 := by
  have hinterp : selfCall.interp = fun _ => some [47, 115] := rfl
  simp [Call.outcome, Call.depths, hinterp, nest, show selfCall.isExec = false from rfl]

/-! ## The argument string

Each level puts its argument and path before the arguments that it got. The system calls take paths
of 255 and arguments of 511 bytes, which fit once but not twice. -/

/-- The interpreter that a file names, with its argument. -/
def Call.script (c : Call) (x : Path) : Option (Path × Path) :=
  if c.admits x = true then shebang (scriptHeader c.files x) else none

/-- The counter that the call reads. -/
def Call.depth (c : Call) (d : Depths) : Int := if c.isExec = true then d.exec else d.spawn

/-- The argument and `new_args` of each level that is not refused. -/
def compose (script : Path → Option (Path × Path)) (depth : Int) (x : Path) (args : Option Path) :
    List (Path × Path) :=
  match script x with
  | none => []
  | some (y, arg) =>
    if 4 ≤ depth then []
    else
      let newArgs := scriptArgs arg x args
      (arg, newArgs) :: compose script (depth + 1) y (some newArgs)
termination_by (4 - depth).toNat

/-- Where a level writes: `strncpy` pads with zeros, and `strcat` ends with one. -/
def Written (w : Path × Path) (i : ℕ) : Prop :=
  w.1 ≠ [] ∧ i < newArgsSize - 1 ∨ i ≤ w.2.length

/-- The first `n` files of a chain that are scripts, each with its argument. -/
def chain (script : Path → Option (Path × Path)) : ℕ → Path → List (Path × Path)
  | 0, _ => []
  | n + 1, x =>
    match script x with
    | none => []
    | some (y, arg) => (x, arg) :: chain script n y

/-- The bytes of a script's path and of its argument with the space behind it. -/
def added (w : Path × Path) : ℕ := w.1.length + if w.2 = [] then 0 else w.2.length + 1

/-- The bytes of arguments with the space before them. -/
def argsBytes : Option Path → ℕ
  | none => 0
  | some a => if a = [] then 0 else a.length + 1

/-- The paths and arguments of the scripts, the spaces between them and the arguments of the call
leave room for the terminator. -/
def ArgsFit (scripts : List (Path × Path)) (args : Option Path) : Prop :=
  scripts = [] ∨ (scripts.map added).sum + (scripts.length - 1) + argsBytes args < newArgsSize

/-- Both functions fill the buffer alike; here as `execPrelude` has it, for the counter as well. -/
theorem execPrelude_spec {files : Files} {ids : Ids} {fuel : ℕ} {depth : Int} {path : Path}
    {args : Option Path} {c : Call} (hfiles : c.files = files)
    (hadmits : ∀ x, c.admits x = true ↔ files.exists_ x = true ∧ files.isDirectory x = false ∧
      ∃ stat, files.getInfo x = some stat ∧
        vfsCheckPermission stat.fmode stat.uid stat.gid 1 ids = true)
    (hfuel : (4 - depth).toNat < fuel) :
    (execPrelude files ids fuel depth path args).depth = (nest c.interp depth path).depth ∧
      (execPrelude files ids fuel depth path args).overrun =
        (compose c.script depth path args).any fun w => decide (newArgsSize ≤ w.2.length) := by
  induction fuel generalizing depth path args with
  | zero => omega
  | succ fuel ih =>
    have hpath := hadmits path
    -- the four checks of the file, then its first line
    unfold execPrelude nest compose
    simp only [Call.interp, Call.script, hfiles]
    split
    · simp_all
    split
    · simp_all
    split
    · simp_all
    next stat hstat =>
      split
      · simp_all
      · have hallowed : c.admits path = true := by simp_all
        simp only [hallowed, if_true]
        cases hline : shebang (scriptHeader files path) with
        | none => simp
        | some w =>
          obtain ⟨y, arg⟩ := w
          simp only [Option.map_some]
          split
          · simp
          · obtain ⟨hdepth, hover⟩ := @ih (depth + 1) y (some (scriptArgs arg path args)) (by omega)
            simp [hdepth, hover, Bool.or_comm]

section

variable {script : Path → Option (Path × Path)} {depth : Int} {x y arg : Path} {args : Option Path}

theorem compose_some (h : script x = some (y, arg)) (hdepth : depth < 4) :
    compose script depth x args = (arg, scriptArgs arg x args) ::
      compose script (depth + 1) y (some (scriptArgs arg x args)) := by
  rw [compose, h]
  exact if_neg (Int.not_le.2 hdepth)

theorem compose_refused (hdepth : 4 ≤ depth) : compose script depth x args = [] := by
  rw [compose]
  cases script x with
  | none => rfl
  | some => exact if_pos hdepth

end

theorem written_lt_iff (w : Path × Path) :
    (∀ i, Written w i → i < newArgsSize) ↔ w.2.length < newArgsSize := by
  constructor
  · exact fun h => h _ (.inr (Nat.le_refl _))
  · rintro h i (⟨-, hi⟩ | hi)
    · exact Nat.lt_of_lt_pred hi
    · exact Nat.lt_of_le_of_lt hi h

theorem length_scriptArgs (arg path : Path) (args : Option Path) :
    (scriptArgs arg path args).length = added (path, arg) + argsBytes args := by
  have harg : (if arg = [] then [] else arg ++ [32]).length =
      if arg = [] then 0 else arg.length + 1 := by
    split <;> simp
  cases args with
  | none =>
    simp only [scriptArgs, added, argsBytes, length_append, harg, length_nil]
    omega
  | some a =>
    have ha : (if a = [] then [] else 32 :: a).length = if a = [] then 0 else a.length + 1 := by
      split <;> simp
    simp only [scriptArgs, added, argsBytes, length_append, harg, ha]
    omega

section

variable {script : Path → Option (Path × Path)}
  (hnames : ∀ x y arg, script x = some (y, arg) → y ≠ [])

include hnames

/-- The strings grow from level to level, so they fit if the last one does; and that is made of
everything in the chain. -/
theorem compose_fit_iff {depth : Int} {x : Path} {args : Option Path} (hx : x ≠ []) :
    (∀ w ∈ compose script depth x args, w.2.length < newArgsSize) ↔
      ArgsFit (chain script (4 - depth).toNat x) args := by
  obtain ⟨n, hn⟩ : ∃ n, (4 - depth).toNat = n := ⟨_, rfl⟩
  induction n generalizing depth x args with
  | zero =>
    rw [hn, compose_refused (by omega)]
    simp [ArgsFit, chain]
  | succ n ih =>
    rw [hn, chain]
    cases hscript : script x with
    | none =>
      rw [compose, hscript]
      simp [ArgsFit]
    | some w =>
      obtain ⟨y, arg⟩ := w
      have hrest := @ih (depth + 1) y (some (scriptArgs arg x args)) (hnames x y arg hscript)
        (by omega)
      have hlength := length_scriptArgs arg x args
      -- the path is in the string, so a space goes before it on the next level
      have hsome : argsBytes (some (scriptArgs arg x args)) =
          added (x, arg) + argsBytes args + 1 := by
        have hpos : 0 < x.length := length_pos_iff.2 hx
        have hne : scriptArgs arg x args ≠ [] := by
          rw [← length_pos_iff, hlength]
          simp only [added]
          omega
        rw [argsBytes, if_neg hne, hlength]
      have hsub : (4 - (depth + 1)).toNat = n := by omega
      rw [hsub] at hrest
      rw [compose_some hscript (by omega)]
      simp only [forall_mem_cons, hrest, hlength, ArgsFit, hsome, map_cons,
        sum_cons, length_cons, reduceCtorEq, false_or]
      cases chain script n y with
      | nil => simp
      | cons v vs =>
        simp only [map_cons, sum_cons, length_cons, reduceCtorEq, false_or]
        omega

end

/-- An interpreter has a name. -/
theorem Call.script_ne_nil {c : Call} {x y arg : Path} (h : c.script x = some (y, arg)) :
    y ≠ [] := by
  unfold Call.script shebang at h
  grind

/-- Every level of a call writes inside `new_args` exactly if the paths and arguments of the scripts
that are not refused fit together with the arguments of the call. -/
theorem script_args_fit_iff (c : Call) (d : Depths) (args : Option Path) (hpath : c.path ≠ []) :
    (∀ w ∈ compose c.script (c.depth d) c.path args, ∀ i, Written w i → i < newArgsSize) ↔
      ArgsFit (chain c.script (4 - c.depth d).toNat c.path) args := by
  simp only [written_lt_iff]
  exact compose_fit_iff (fun _ _ _ => Call.script_ne_nil) hpath

/-- The call of a script that names itself, with an argument. -/
def argCall : Call :=
  { selfCall with files := { selfCall.files with
      read := fun _ _ _ => [35, 33, 47, 115, 32] ++ .replicate 130 97 } }

theorem script_argCall : argCall.script = fun _ => some ([47, 115], .replicate 130 97) := by
  have hline : shebang ([35, 33, 47, 115, 32] ++ .replicate 130 97) =
      some ([47, 115], .replicate 130 97) := by
    decide +kernel
  exact funext fun _ => hline

/-- With 400 bytes of arguments all four levels fit. -/
theorem script_args_fit_iff_four :
    (compose argCall.script 0 argCall.path (some (.replicate 400 97))).length = 4 ∧
    ∀ w ∈ compose argCall.script (argCall.depth ⟨0, 0⟩) argCall.path (some (.replicate 400 97)),
      ∀ i, Written w i → i < newArgsSize := by
  constructor
  · rw [script_argCall, compose_some rfl (by decide), compose_some rfl (by decide),
      compose_some rfl (by decide), compose_some rfl (by decide), compose_refused (by decide)]
    rfl
  · refine (script_args_fit_iff argCall ⟨0, 0⟩ _ (by decide)).2 ?_
    rw [script_argCall]
    exact .inr (by decide +kernel)

/-- With 511 bytes of arguments the fourth level writes outside. -/
theorem script_args_outside : ∃ w ∈ compose argCall.script (argCall.depth ⟨0, 0⟩) argCall.path
    (some (.replicate 511 97)), Written w newArgsSize := by
  rw [script_argCall, compose_some rfl (by decide), compose_some rfl (by decide),
    compose_some rfl (by decide), compose_some rfl (by decide)]
  exact ⟨_, .tail _ (.tail _ (.tail _ (.head _))), .inr (by decide +kernel)⟩

end BoredOS.Sys.Shebang
