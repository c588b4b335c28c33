import LithiumKernel.Fs.Namespace
import LithiumKernel.Fs.Normalize

/-!
# Directory listing (kernel/syscall/syscall.c, kernel/fs/vfs.c)

`sys_readdir` copies a name into a buffer on the kernel stack and the whole buffer to the user. The
buffer enters as what it held before. `strncpy` fills all of it for a name of up to 62 bytes; a name
of 63 bytes, the longest there is, leaves the last byte as it was.
-/
namespace LithiumKernel.Fs

open LithiumKernel.Lib

variable {φ : Type} {v : Vfs φ} {kids : Nat → List Nat}

/-- `(uint32_t)type`, as it lies in memory. -/
def typeValue (type : VnodeType) : List Byte :=
  let value : BitVec 32 := match type with
    | .file => 0
    | .dir => 1
    | .device => 2
    | .symlink => 3
  (List.range 4).map fun i => value.extractLsb' (8 * i) 8

/-- The walk over the children; `buf` is `name_out`. No table has a `readdir` function. -/
def readdirFrom (idx : BitVec 32) (buf : List Byte) :
    Nat → BitVec 32 → Option Nat → VfsM φ (Option (List Byte × VnodeType))
  | _, _, none => pure none
  | 0, _, some _ => throw .endlessList
  | fuel + 1, i, some c => do
    let vn := (← get).node c
    if i = idx then pure (some (strncpy buf (cstr vn.name) (vfsNameMax - 1), vn.type))
    else readdirFrom idx buf fuel (i + 1#32) vn.nextSib

def vfsReaddir (path : CString) (idx : BitVec 32) (buf : List Byte) :
    VfsM φ (Option (List Byte × VnodeType)) := do
  match ← vfsLookup path with
  | none => pure none
  | some n =>
    let v ← get
    if (v.node n).type ≠ .dir then pure none
    else readdirFrom idx buf v.count 0#32 (v.node n).children

/-- The result and the bytes that reach the user. A destination is `none` for `NULL`, and otherwise
which of its bytes can be written. -/
def sysReaddir (user : Nat → Option Byte) (idx : BitVec 32) (userName userType : Option (Nat → Bool))
    (stack : List Byte) : CallM φ (Int × List Byte × List Byte) := do
  match ← userPath user with
  | .error rc => pure (rc, [], [])
  | .ok path =>
    match userName, userType with
    | some nameOut, some typeOut =>
      match ← onVfs (vfsReaddir path idx stack) with
      | none => pure (-enoent, [], [])
      | some (name, type) =>
        let delivered := copyToUser nameOut 0 name
        if delivered.length < name.length then pure (-efault, delivered, [])
        else
          let value := copyToUser typeOut 0 (typeValue type)
          if value.length < (typeValue type).length then pure (-efault, delivered, value)
          else pure (0, delivered, value)
    | _, _ => pure (-efault, [], [])

/-! ## The walk -/

/-- The buffer after the copy of a child's name, and its type. -/
def entryOf (v : Vfs φ) (buf : List Byte) (c : Nat) : List Byte × VnodeType :=
  (strncpy buf (v.nameOf c) (vfsNameMax - 1), (v.node c).type)

/-- An index selects the child at that place of the list. -/
theorem readdirFrom_eq (idx : BitVec 32) (buf : List Byte) : ∀ {xs : List Nat} {h : Option Nat}
    {fuel i : Nat}, Links (fun c => (v.node c).nextSib) h xs → xs.length ≤ fuel → i ≤ idx.toNat →
    readdirFrom idx buf fuel (BitVec.ofNat 32 i) h v =
      .ok (xs[idx.toNat - i]?.map (entryOf v buf)) v := by
  intro xs
  induction xs with
  | nil =>
    intro h fuel i links _ _
    obtain rfl : h = none := links
    cases fuel <;> rfl
  | cons x xs ih =>
    rintro h fuel i ⟨rfl, rest⟩ enough low
    rw [List.length_cons] at enough
    obtain ⟨fuel, rfl⟩ := Nat.exists_eq_succ_of_ne_zero (show fuel ≠ 0 by omega)
    have small := idx.isLt
    have at_ : BitVec.ofNat 32 i = idx ↔ i = idx.toNat := by
      rw [← BitVec.toNat_inj, BitVec.toNat_ofNat, Nat.mod_eq_of_lt (by omega)]
    refine run_of_wp ?_
    unfold readdirFrom
    rw [wp_bind]
    apply wp_ite
    · intro here
      rw [at_.mp here, Nat.sub_self]
      exact ⟨rfl, rfl⟩
    · intro there
      have next : i < idx.toNat := Nat.lt_of_le_of_ne low fun same => there (at_.mpr same)
      rw [← BitVec.ofNat_add, wp_run (ih rest (by omega) next)]
      rw [show idx.toNat - i = idx.toNat - (i + 1) + 1 by omega, List.getElem?_cons_succ]
      exact ⟨rfl, rfl⟩

theorem TreeInv.vfsReaddir_eq (tree : TreeInv v kids) {path : CString} {n : Nat}
    (found : vfsLookup path v = .ok (some n) v) (isDir : (v.node n).type = .dir) (idx : BitVec 32)
    (buf : List Byte) :
    vfsReaddir path idx buf v = .ok ((kids n)[idx.toNat]?.map (entryOf v buf)) v := by
  have lt := tree.descend_lt (tree.lookup_inv found).2
  refine run_of_wp ?_
  unfold vfsReaddir
  rw [wp_bind, wp_run found]
  dsimp only
  rw [wp_bind, wp_get, if_neg (by rw [isDir]; simp)]
  have walk := readdirFrom_eq idx buf (tree.links n lt) (tree.kids_length lt) (Nat.zero_le _)
  rw [wp_run walk]
  exact ⟨rfl, rfl⟩

/-! ## The bytes -/

/-- A name of up to 62 bytes fills the buffer. -/
theorem strncpy_fills {stack : List Byte} {name : CString} (size : stack.length = vfsNameMax)
    (short : name.length < vfsNameMax - 1) :
    strncpy stack name (vfsNameMax - 1) =
      name ++ List.replicate (vfsNameMax - name.length) 0#8 := by
  have bytes : strncpyBytes name (vfsNameMax - 1) =
      name ++ List.replicate (vfsNameMax - name.length) 0#8 := strncpyBytes_short short
  rw [strncpy, bytes, List.drop_eq_nil_of_le, List.append_nil]
  rw [List.length_append, List.length_replicate, size]
  simp only [vfsNameMax] at short ⊢
  omega

/-- A name of 63 bytes leaves the last byte. -/
theorem strncpy_leaves {stack : List Byte} {name : CString} (long : name.length = vfsNameMax - 1) :
    strncpy stack name (vfsNameMax - 1) = name ++ stack.drop (vfsNameMax - 1) := by
  have bytes : strncpyBytes name (vfsNameMax - 1) = name := by
    rw [strncpyBytes_long (le_of_eq long.symm), ← long, List.take_length]
  rw [strncpy, bytes, long]

theorem copyToUser_all {writable : Nat → Bool} : ∀ {bytes : List Byte} {i : Nat},
    (∀ j, i ≤ j → j < i + bytes.length → writable j = true) → copyToUser writable i bytes = bytes := by
  intro bytes
  induction bytes with
  | nil => exact fun _ => rfl
  | cons b bytes ih =>
    intro i all
    rw [List.length_cons] at all
    rw [copyToUser, if_pos (all i (le_refl _) (by omega)),
      ih fun j low high => all j (by omega) (by omega)]

/-! ## The call -/

/-- The call for an index gives the entry of the child and nothing else: 64 bytes that hold its name
and a terminator, whatever the buffer held before. The directory's path, a slash and the name lead
to the child again. -/
structure Returned (k : Calling φ) (user : Nat → Option Byte) (path : CString) (idx : BitVec 32)
    (c : Nat) : Prop where
  entry : ∃ bytes, bytes.length = vfsNameMax ∧ Terminated bytes ∧ cstr bytes = k.vfs.nameOf c ∧
    ∀ stack, stack.length = vfsNameMax → ∀ nameOut typeOut : Nat → Bool,
      (∀ i < vfsNameMax, nameOut i = true) → (∀ i < 4, typeOut i = true) →
      sysReaddir user idx (some nameOut) (some typeOut) stack k =
        .ok (0, bytes, typeValue (k.vfs.node c).type) k
  lookup : (path ++ slash :: k.vfs.nameOf c).length < vfsMaxPath →
    ∃ r, normalizeAbsolutePath vfsMaxPath (path ++ slash :: k.vfs.nameOf c) = some r ∧
      vfsLookup r k.vfs = .ok (some c) k.vfs

section Call

variable {k : Calling φ} {user : Nat → Option Byte} {path : CString} {n : Nat}

theorem sysReaddir_missing (tree : TreeInv k.vfs kids)
    (resolved : userPath user k = .ok (.ok path) k)
    (found : vfsLookup path k.vfs = .ok (some n) k.vfs) (isDir : (k.vfs.node n).type = .dir)
    {idx : BitVec 32} (behind : (kids n).length ≤ idx.toNat) (stack : List Byte)
    (nameOut typeOut : Nat → Bool) :
    sysReaddir user idx (some nameOut) (some typeOut) stack k = .ok (-enoent, [], []) k := by
  have entry := tree.vfsReaddir_eq found isDir idx stack
  rw [List.getElem?_eq_none behind] at entry
  refine run_of_wp ?_
  unfold sysReaddir
  rw [wp_bind, wp_run resolved]
  dsimp only
  rw [wp_bind, wp_onVfs, wp_run entry]
  exact ⟨rfl, rfl⟩

theorem sysReaddir_entry (tree : TreeInv k.vfs kids) (resolved : userPath user k = .ok (.ok path) k)
    (found : vfsLookup path k.vfs = .ok (some n) k.vfs) (isDir : (k.vfs.node n).type = .dir)
    {idx : BitVec 32} {c : Nat} (here : (kids n)[idx.toNat]? = some c) {stack : List Byte}
    (size : stack.length = vfsNameMax) {nameOut typeOut : Nat → Bool}
    (names : ∀ i < vfsNameMax, nameOut i = true) (types : ∀ i < 4, typeOut i = true) :
    sysReaddir user idx (some nameOut) (some typeOut) stack k =
      .ok (0, strncpy stack (k.vfs.nameOf c) (vfsNameMax - 1), typeValue (k.vfs.node c).type) k := by
  have entry := tree.vfsReaddir_eq found isDir idx stack
  rw [here, Option.map_some, entryOf] at entry
  have whole : (strncpy stack (k.vfs.nameOf c) (vfsNameMax - 1)).length = vfsNameMax := by
    rw [strncpy_length (by rw [size]; decide), size]
  have name : copyToUser nameOut 0 (strncpy stack (k.vfs.nameOf c) (vfsNameMax - 1)) =
      strncpy stack (k.vfs.nameOf c) (vfsNameMax - 1) :=
    copyToUser_all fun j _ high => names j (by omega)
  have value : copyToUser typeOut 0 (typeValue (k.vfs.node c).type) =
      typeValue (k.vfs.node c).type :=
    copyToUser_all fun j _ high => types j (by simpa [typeValue] using high)
  refine run_of_wp ?_
  unfold sysReaddir
  rw [wp_bind, wp_run resolved]
  dsimp only
  rw [wp_bind, wp_onVfs, wp_run entry]
  dsimp only
  rw [name, value, if_neg (Nat.lt_irrefl _), if_neg (Nat.lt_irrefl _)]
  exact ⟨rfl, rfl⟩

/-- The path of a child. -/
theorem TreeInv.child_path (tree : TreeInv v kids) (canonical : Canonical path)
    (found : vfsLookup path v = .ok (some n) v) {c : Nat} (lt : c < v.count)
    (parent : (v.node c).parent = some n) (fits : (path ++ slash :: v.nameOf c).length < vfsMaxPath) :
    ∃ r, normalizeAbsolutePath vfsMaxPath (path ++ slash :: v.nameOf c) = some r ∧
      vfsLookup r v = .ok (some c) v := by
  obtain ⟨short, names, ok, rfl⟩ := canonical
  have notRoot : c ≠ v.root := by
    rintro rfl
    rw [tree.root.2.1] at parent
    cases parent
  have component := (tree.named c lt notRoot).1
  have okAll : ∀ d ∈ names ++ [v.nameOf c], Component d := by
    intro d member
    rcases List.mem_append.mp member with old | new
    · exact ok d old
    · rw [List.mem_singleton.mp new]
      exact component
  have clean : 0#8 ∉ render names ++ slash :: v.nameOf c := by
    intro member
    rcases List.mem_append.mp member with old | new
    · exact render_noNul ok old
    · rcases List.mem_cons.mp new with zero | inside
      · exact absurd zero (by decide)
      · exact component.noNul inside
  have lead : (render names ++ slash :: v.nameOf c).head? = some slash := by
    obtain ⟨tail, whole⟩ := List.head?_eq_some_iff.mp (render_head names)
    rw [whole]
    rfl
  obtain ⟨run, -, weight_⟩ := @normalizeAbsolutePath_eq vfsMaxPath _ (by decide) lead clean
  have stack : stackOf (components (render names ++ slash :: v.nameOf c)) = names ++ [v.nameOf c] := by
    rw [components_append, components_render ok,
      components_single component.noSlash component.nonempty, stackOf_names okAll]
  rw [stack] at run weight_
  have shortAll : (render (names ++ [v.nameOf c])).length < vfsMaxPath := by
    rw [length_render, if_neg (by simp)]
    omega
  refine ⟨_, run.resolve_right fun full => absurd full.2 (by omega), ?_⟩
  have reached : v.descend kids v.root names = some n := by
    have lookup := tree.vfsLookup_eq ok short
    rw [found] at lookup
    injection lookup with same
    exact same.symm
  rw [tree.vfsLookup_eq okAll shortAll, descend_snoc, reached, Option.bind_some,
    (tree.child_iff (tree.descend_lt reached)).mpr ⟨lt, parent, rfl⟩]

theorem returned_iff (tree : TreeInv k.vfs kids) (canonical : Canonical path)
    (resolved : userPath user k = .ok (.ok path) k)
    (found : vfsLookup path k.vfs = .ok (some n) k.vfs) (isDir : (k.vfs.node n).type = .dir)
    {idx : BitVec 32} {c : Nat} (here : (kids n)[idx.toNat]? = some c) :
    Returned k user path idx c ↔ (k.vfs.nameOf c).length < vfsNameMax - 1 := by
  have below := tree.descend_lt (tree.lookup_inv found).2
  obtain ⟨lt, parent⟩ := (tree.kid n below c).mp (List.mem_of_getElem? here)
  have notRoot : c ≠ k.vfs.root := by
    rintro rfl
    rw [tree.root.2.1] at parent
    cases parent
  obtain ⟨component, fits⟩ := tree.named c lt notRoot
  have call := @sysReaddir_entry φ kids k user path n tree resolved found isDir idx c here
  constructor
  · rintro ⟨⟨bytes, size, terminated, _, always⟩, _⟩
    by_contra long
    have whole : (k.vfs.nameOf c).length = vfsNameMax - 1 := by
      simp only [vfsNameMax] at long fits ⊢
      omega
    -- a buffer without a zero byte
    have stale : (List.replicate vfsNameMax 1#8).length = vfsNameMax := List.length_replicate
    have first := always _ stale (fun _ => true) (fun _ => true) (fun _ _ => rfl) (fun _ _ => rfl)
    rw [call stale (fun _ _ => rfl) (fun _ _ => rfl)] at first
    injection first with pair
    have same : strncpy (List.replicate vfsNameMax 1#8) (k.vfs.nameOf c) (vfsNameMax - 1) = bytes :=
      congrArg (fun r => r.2.1) pair
    rw [strncpy_leaves whole] at same
    rw [← same] at terminated
    rcases List.mem_append.mp terminated with inside | behind
    · exact component.noNul inside
    · exact absurd behind (by decide)
  · intro short
    refine ⟨⟨k.vfs.nameOf c ++ List.replicate (vfsNameMax - (k.vfs.nameOf c).length) 0#8, ?_, ?_, ?_, ?_⟩,
      tree.child_path canonical found lt parent⟩
    · rw [List.length_append, List.length_replicate]
      omega
    · refine List.mem_append_right _ (List.mem_replicate.mpr ⟨by omega, rfl⟩)
    · obtain ⟨m, more⟩ := Nat.exists_eq_succ_of_ne_zero
        (show vfsNameMax - (k.vfs.nameOf c).length ≠ 0 by omega)
      rw [more, List.replicate_succ]
      exact cstr_append component.noNul _
    · intro stack size nameOut typeOut names types
      rw [call size names types, strncpy_fills size short]

end Call

/-- **Directory listing.** A directory's children have an order in which the successive indices give
them, each once, and the index behind the last one fails. What an index gives is the entry and
nothing else just if the name has at most 62 bytes. -/
theorem readdir_returns_iff {sys₀ sys : FsSystem TmpfsData} {labels : List (FsOp × FsResult)}
    (boot : FsBoot tmpfsFileOps sys₀) (run : Run (FsStep tmpfsFileOps) sys₀ labels sys)
    {self : FsTask} {user : Nat → Option Byte} {path : CString}
    (resolved : userPath user ⟨sys.vfs, self⟩ = .ok (.ok path) ⟨sys.vfs, self⟩)
    {n : Nat} (found : vfsLookup path sys.vfs = .ok (some n) sys.vfs)
    (isDir : (sys.vfs.node n).type = .dir) :
    ∃ children : List Nat, children.Nodup ∧
      (∀ c, c ∈ children ↔ c < sys.vfs.count ∧ (sys.vfs.node c).parent = some n) ∧
      (∀ idx : BitVec 32, ∀ c, children[idx.toNat]? = some c →
        (Returned ⟨sys.vfs, self⟩ user path idx c ↔ (sys.vfs.nameOf c).length ≤ 62)) ∧
      ∀ idx : BitVec 32, children.length ≤ idx.toNat → ∀ stack nameOut typeOut,
        sysReaddir user idx (some nameOut) (some typeOut) stack ⟨sys.vfs, self⟩ =
          .ok (-enoent, [], []) ⟨sys.vfs, self⟩ := by
  obtain ⟨kids, tree⟩ := (boot.run tmpfsFileOps_safe run).tree
  have canonical : Canonical path :=
    (wp_ok (@userPath_spec _ user ⟨sys.vfs, self⟩ fun _ _ => True) resolved).2.2 path rfl
  have below := tree.descend_lt (tree.lookup_inv found).2
  refine ⟨kids n, tree.nodup n below, tree.kid n below, ?_, ?_⟩
  · intro idx c here
    rw [returned_iff tree canonical resolved found isDir here]
    exact Nat.lt_succ_iff
  · intro idx behind stack nameOut typeOut
    exact sysReaddir_missing tree resolved found isDir behind stack nameOut typeOut

theorem userPath_run {k : Calling φ} {user : Nat → Option Byte} {r : Except Int CString}
    (value : resultValue (userPath user k) = some r) : userPath user k = .ok r k := by
  have ran := result_eq value
  rw [ran, (wp_ok (@userPath_spec _ user k fun _ _ => True) ran).1]

theorem vfsLookup_run {path : CString} {r : Option Nat}
    (value : resultValue (vfsLookup path v) = some r) : vfsLookup path v = .ok r v := by
  have ran := result_eq value
  have same := wp_ok (keeps_vfsLookup path v) ran
  rw [ran, show resultState (vfsLookup path v) = v from same]

/-- The two files in `/etc`. -/
theorem readdir_returns_iff_etc :
    ∃ children : List Nat, children ≠ [] ∧ ∀ idx : BitVec 32, ∀ c, children[idx.toNat]? = some c →
      (Returned ⟨bootVfs, newTask⟩ (userText ['/', 'e', 't', 'c']) (asciiBytes ['/', 'e', 't', 'c']) idx c ↔
        (bootVfs.nameOf c).length ≤ 62) := by
  have resolved : userPath (userText ['/', 'e', 't', 'c']) ⟨bootVfs, newTask⟩ =
      .ok (.ok (asciiBytes ['/', 'e', 't', 'c'])) ⟨bootVfs, newTask⟩ := userPath_run (by decide +kernel)
  have found : vfsLookup (asciiBytes ['/', 'e', 't', 'c']) bootVfs = .ok (some 5) bootVfs :=
    vfsLookup_run (by decide +kernel)
  obtain ⟨children, -, all, entries, -⟩ :=
    readdir_returns_iff bootSystem_boot .nil resolved found (by decide +kernel)
  refine ⟨children, ?_, entries⟩
  have inside : 6 ∈ children := (all 6).mpr ⟨by decide +kernel, by decide +kernel⟩
  exact List.ne_nil_of_mem inside

/-- The longest name there can be. -/
def longName : CString := List.replicate 63 0x61#8

/-- A file with the longest name: the 64th byte the user gets is what the stack held. -/
theorem readdir_leaks_stack :
    ∃ sys, Run (FsStep tmpfsFileOps) bootSystem
        [(.createFile richAlloc (slash :: longName) none 0, .int 0)] sys ∧
      sys.vfs.nameOf 10 = longName ∧ (sys.vfs.node 10).parent = some sys.vfs.root ∧
      ∀ b ∈ [0x41#8, 0x42#8],
        resultValue (sysReaddir (userText ['/']) 0#32 (some fun _ => true) (some fun _ => true)
            (List.replicate vfsNameMax b) ⟨sys.vfs, newTask⟩) =
          some (0, longName ++ [b], typeValue .file) ∧ ¬ Terminated (longName ++ [b]) := by
  have canonical : Canonical (slash :: longName) := ⟨by decide, [longName], by decide, by decide⟩
  have created : FsStep tmpfsFileOps bootSystem
      (.createFile richAlloc (slash :: longName) none 0, .int 0) _ :=
    .eval ⟨canonical, nofun⟩ (by decide +kernel)
  refine ⟨_, Run.nil.snoc created, by decide +kernel, by decide +kernel, ?_⟩
  unfold Terminated
  decide +kernel

end LithiumKernel.Fs
