import LithiumKernel.Lib.CString
import Mathlib.Data.List.Basic

/-!
# Paths (kernel/syscall/syscall.c)

`path_pop`, `path_push`, `normalize_absolute_path` and `resolve_path`. A path is the string
in front of its terminator, so `*len` of the source is the length of `out`; `none` is
`-EINVAL`. The second half says which paths come out: those that spell a list of names.
-/
namespace LithiumKernel.Fs

open LithiumKernel.Lib

def slash : BitVec 8 := 0x2F#8
def dot : BitVec 8 := 0x2E#8
def vfsMaxPath : Nat := 256

/-- `while (*len > 1 && out[*len - 1] != '/') (*len)--`. -/
def backToSlash (out : CString) : Nat → Nat
  | len + 2 => if out[len + 1]? = some slash then len + 2 else backToSlash out (len + 1)
  | len => len

def pathPop (out : CString) : CString :=
  if out.length ≤ 1 then out
  else
    let len := backToSlash out out.length
    out.take (if 1 < len then len - 1 else len)

def pathPush (cap : Nat) (out name : CString) : Option CString :=
  if name = [] then none
  else
    let sep := if 1 < out.length then [slash] else []
    if cap < out.length + sep.length + name.length + 1 then none
    else some (out ++ sep ++ name)

/-- The loop of `normalize_absolute_path`. Every turn but the last consumes a byte, so the
length of what is left is fuel enough. -/
def normalizeFrom (cap : Nat) : Nat → CString → CString → Option CString
  | 0, out, _ => some out
  | fuel + 1, out, p =>
    if p = [] then some out
    else
      let start := p.dropWhile (· = slash)
      let part := start.takeWhile (· ≠ slash)
      let rest := start.dropWhile (· ≠ slash)
      if part = [] then some out
      else if part = [dot] then normalizeFrom cap fuel out rest
      else if part = [dot, dot] then normalizeFrom cap fuel (pathPop out) rest
      else match pathPush cap out part with
        | none => none
        | some pushed => normalizeFrom cap fuel pushed rest

def normalizeAbsolutePath (cap : Nat) (input : CString) : Option CString :=
  if cap < 2 ∨ input.head? ≠ some slash then none
  else normalizeFrom cap input.length [slash] input

/-- `resolve_path` for a task with the given working directory. -/
def resolvePath (cwd path : CString) : Option CString :=
  if path = [] then none
  else if path.head? = some slash then normalizeAbsolutePath vfsMaxPath path
  else
    let sep := if 1 < cwd.length then [slash] else []
    if vfsMaxPath < cwd.length + sep.length + path.length + 1 then none
    else normalizeAbsolutePath vfsMaxPath (cwd ++ sep ++ path)

/-! ## Canonical paths -/

/-- A name that can stand between two slashes of a canonical path. -/
structure Component (c : CString) : Prop where
  nonempty : c ≠ []
  noSlash : slash ∉ c
  noNul : 0#8 ∉ c
  notDot : c ≠ [dot]
  notDotDot : c ≠ [dot, dot]

instance (c : CString) : Decidable (Component c) :=
  decidable_of_iff (c ≠ [] ∧ slash ∉ c ∧ 0#8 ∉ c ∧ c ≠ [dot] ∧ c ≠ [dot, dot])
    ⟨fun ⟨a, b, c, d, e⟩ => ⟨a, b, c, d, e⟩, fun ⟨a, b, c, d, e⟩ => ⟨a, b, c, d, e⟩⟩

/-- The path that spells the names. -/
def render (names : List CString) : CString :=
  if names = [] then [slash] else names.flatMap (slash :: ·)

structure Canonical (p : CString) : Prop where
  short : p.length < vfsMaxPath
  spelled : ∃ names, (∀ c ∈ names, Component c) ∧ p = render names

theorem render_nil : render [] = [slash] := rfl

theorem render_of_ne {names : List CString} (ne : names ≠ []) :
    render names = names.flatMap (slash :: ·) := if_neg ne

theorem render_snoc (names : List CString) (c : CString) :
    render (names ++ [c]) = (if names = [] then [] else render names) ++ slash :: c := by
  rw [render_of_ne (by simp), List.flatMap_append]
  split
  · rename_i none_
    rw [none_]
    simp
  · rename_i ne
    rw [render_of_ne ne]
    simp

theorem render_ne_nil (names : List CString) : render names ≠ [] := by
  unfold render
  split
  · simp
  · rename_i ne
    obtain ⟨c, cs, rfl⟩ := List.exists_cons_of_ne_nil ne
    simp

theorem render_head (names : List CString) : (render names).head? = some slash := by
  unfold render
  split
  · rfl
  · rename_i ne
    obtain ⟨c, cs, rfl⟩ := List.exists_cons_of_ne_nil ne
    rfl

theorem one_lt_render {names : List CString} (ok : ∀ c ∈ names, Component c) :
    1 < (render names).length ↔ names ≠ [] := by
  constructor
  · rintro long rfl
    exact absurd long (by decide)
  · intro ne
    obtain ⟨c, cs, rfl⟩ := List.exists_cons_of_ne_nil ne
    rw [render_of_ne ne]
    have := List.length_pos_iff.mpr (ok c (by simp)).nonempty
    simp
    omega

theorem render_noNul {names : List CString} (ok : ∀ c ∈ names, Component c) :
    0#8 ∉ render names := by
  unfold render
  split
  · decide
  · intro member
    obtain ⟨c, here, inside⟩ := List.mem_flatMap.mp member
    rcases List.mem_cons.mp inside with zero | inside
    · exact absurd zero (by decide)
    · exact (ok c here).noNul inside

theorem Canonical.noNul {p : CString} (canonical : Canonical p) : 0#8 ∉ p := by
  obtain ⟨names, ok, rfl⟩ := canonical.spelled
  exact render_noNul ok

/-! ## The functions on canonical paths -/

theorem backToSlash_eq (pre name : CString) (clean : slash ∉ name) :
    backToSlash (pre ++ slash :: name) (pre.length + 1 + name.length) = pre.length + 1 := by
  -- the induction is over the bytes behind the slash that are still counted
  suffices all : ∀ k ≤ name.length,
      backToSlash (pre ++ slash :: name) (pre.length + 1 + k) = pre.length + 1 from all _ (le_refl _)
  intro k
  induction k with
  | zero =>
    intro _
    cases len : pre.length with
    | zero => rfl
    | succ n =>
      have here : (pre ++ slash :: name)[n + 1]? = some slash := by
        rw [List.getElem?_append_right (by omega), show n + 1 - pre.length = 0 by omega]
        rfl
      rw [show n + 1 + 1 + 0 = n + 2 from rfl, backToSlash, if_pos here]
  | succ k ih =>
    intro le
    have inside : (pre ++ slash :: name)[pre.length + 1 + k]? = name[k]? := by
      rw [List.getElem?_append_right (by omega),
        show pre.length + 1 + k - pre.length = k + 1 by omega, List.getElem?_cons_succ]
    have other : ¬ (pre ++ slash :: name)[pre.length + 1 + k]? = some slash := by
      rw [inside]
      intro here
      exact clean (List.mem_of_getElem? here)
    have step : backToSlash (pre ++ slash :: name) (pre.length + k + 2) =
        backToSlash (pre ++ slash :: name) (pre.length + k + 1) := by
      rw [backToSlash, if_neg (by rw [show pre.length + k + 1 = pre.length + 1 + k by omega]; exact other)]
    rw [show pre.length + 1 + (k + 1) = pre.length + k + 2 by omega, step,
      show pre.length + k + 1 = pre.length + 1 + k by omega]
    exact ih (by omega)

theorem pathPop_nil : pathPop (render []) = render [] := rfl

theorem pathPop_snoc {names : List CString} {c : CString} (ok : ∀ c ∈ names, Component c)
    (last : Component c) : pathPop (render (names ++ [c])) = render names := by
  have some_ := List.length_pos_iff.mpr last.nonempty
  rw [render_snoc]
  set pre := if names = [] then [] else render names with pre_eq
  have len : (pre ++ slash :: c).length = pre.length + 1 + c.length := by
    simp
    omega
  have back := backToSlash_eq pre c last.noSlash
  rw [← len] at back
  unfold pathPop
  rw [if_neg (by omega)]
  dsimp only
  rw [back]
  by_cases none_ : names = []
  · rw [pre_eq, if_pos none_, none_]
    rfl
  · rw [pre_eq, if_neg none_]
    have long := (one_lt_render ok).mpr none_
    rw [if_pos (by omega), Nat.add_sub_cancel, List.take_left]

theorem pathPush_render {names : List CString} {c : CString} {cap : Nat}
    (ok : ∀ c ∈ names, Component c) (nonempty : c ≠ []) :
    pathPush cap (render names) c =
      if cap < (render (names ++ [c])).length + 1 then none else some (render (names ++ [c])) := by
  have joined : render names ++ (if 1 < (render names).length then [slash] else []) ++ c =
      render (names ++ [c]) := by
    rw [render_snoc]
    by_cases none_ : names = []
    · rw [none_]
      rfl
    · rw [if_pos ((one_lt_render ok).mpr none_), if_neg none_]
      simp
  unfold pathPush
  rw [if_neg nonempty]
  dsimp only
  rw [joined, ← joined]
  simp only [List.length_append]

/-- What the loop keeps of `out`. -/
def Spelled (cap : Nat) (out : CString) : Prop :=
  out.length < cap ∧ ∃ names, (∀ c ∈ names, Component c) ∧ out = render names

theorem Spelled.pop {cap : Nat} {out : CString} (spelled : Spelled cap out) :
    Spelled cap (pathPop out) := by
  obtain ⟨short, names, ok, rfl⟩ := spelled
  rcases List.eq_nil_or_concat names with rfl | ⟨front, c, rfl⟩
  · exact ⟨short, [], by simp, pathPop_nil⟩
  · rw [List.concat_eq_append] at short ok ⊢
    have okFront : ∀ c ∈ front, Component c := fun c member => ok c (by simp [member])
    rw [pathPop_snoc okFront (ok c (by simp))]
    refine ⟨?_, front, okFront, rfl⟩
    rw [render_snoc] at short
    by_cases none_ : front = []
    · rw [none_] at short ⊢
      have := List.length_pos_iff.mpr (ok c (by simp)).nonempty
      simp [render_nil] at short ⊢
      omega
    · rw [if_neg none_] at short
      simp at short
      omega

theorem Spelled.push {cap : Nat} {out c pushed : CString} (spelled : Spelled cap out)
    (component : Component c) (done : pathPush cap out c = some pushed) : Spelled cap pushed := by
  obtain ⟨_, names, ok, rfl⟩ := spelled
  rw [pathPush_render ok component.nonempty] at done
  split at done
  · cases done
  · rename_i fits
    obtain rfl := Option.some.inj done
    refine ⟨by omega, names ++ [c], ?_, rfl⟩
    intro d member
    rcases List.mem_append.mp member with old | new
    · exact ok d old
    · obtain rfl := List.mem_singleton.mp new
      exact component

theorem normalizeFrom_spelled {cap : Nat} : ∀ {fuel : Nat} {out p r : CString}, Spelled cap out →
    0#8 ∉ p → normalizeFrom cap fuel out p = some r → Spelled cap r := by
  intro fuel
  induction fuel with
  | zero =>
    intro out p r spelled _ done
    obtain rfl := Option.some.inj done
    exact spelled
  | succ fuel ih =>
    intro out p r spelled clean done
    unfold normalizeFrom at done
    dsimp only at done
    set start := p.dropWhile (· = slash)
    set part := start.takeWhile (· ≠ slash)
    set rest := start.dropWhile (· ≠ slash)
    have startClean : 0#8 ∉ start := fun member => clean ((List.dropWhile_sublist _).mem member)
    have restClean : 0#8 ∉ rest := fun member => startClean ((List.dropWhile_sublist _).mem member)
    split at done
    · obtain rfl := Option.some.inj done
      exact spelled
    split at done
    · obtain rfl := Option.some.inj done
      exact spelled
    split at done
    · exact ih spelled restClean done
    split at done
    · exact ih spelled.pop restClean done
    rename_i nonempty notDot notDotDot
    split at done
    · cases done
    · rename_i pushed push
      refine ih (spelled.push ⟨nonempty, ?_, ?_, notDot, notDotDot⟩ push) restClean done
      · intro member
        have := List.mem_takeWhile_imp member
        simp at this
      · exact fun member => startClean ((List.takeWhile_sublist _).mem member)

theorem normalizeAbsolutePath_canonical {input r : CString} (clean : 0#8 ∉ input)
    (done : normalizeAbsolutePath vfsMaxPath input = some r) : Canonical r := by
  unfold normalizeAbsolutePath at done
  split at done
  · cases done
  · have start : Spelled vfsMaxPath [slash] := ⟨by decide, [], by simp, rfl⟩
    obtain ⟨short, spelled⟩ := normalizeFrom_spelled start clean done
    exact ⟨short, spelled⟩

/-- What `resolve_path` returns is canonical. -/
theorem resolvePath_canonical {cwd path r : CString} (cwdClean : 0#8 ∉ cwd) (clean : 0#8 ∉ path)
    (done : resolvePath cwd path = some r) : Canonical r := by
  unfold resolvePath at done
  split at done
  · cases done
  split at done
  · exact normalizeAbsolutePath_canonical clean done
  have sepClean : 0#8 ∉ (if 1 < cwd.length then [slash] else []) := by
    split <;> decide
  generalize (if 1 < cwd.length then [slash] else []) = sep at done sepClean
  dsimp only at done
  split at done
  · cases done
  refine normalizeAbsolutePath_canonical ?_ done
  simp only [List.mem_append, not_or]
  exact ⟨⟨cwdClean, sepClean⟩, clean⟩

end LithiumKernel.Fs
