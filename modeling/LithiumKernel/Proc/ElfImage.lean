import LithiumKernel.Mm.FrameAccounting
import LithiumKernel.Proc.ElfSafety

/-!
# What a loaded program finds in its memory

`elf_load_user_image` maps the pages of one segment after the other, each page with a frame of
its own that holds that segment's bytes and zeros, and `vmm_map_page` replaces what was there.
So a page holds what the last segment that touches it put there: `Filling` says this of the
leaves and frames of the new space while the pages are mapped, and `owner` names that segment.
-/
namespace LithiumKernel.Proc

open LithiumKernel.Lib LithiumKernel.Mm LithiumKernel.Syscall

/-! ## Pages mapped one after the other -/

/-- A page that has been mapped: where, with which flags, and its bytes. -/
structure Placed where
  addr : Word
  flags : Word
  bytes : Nat → Byte

/-- The page that was mapped last at a path. -/
def lastAt (placed : List Placed) (q : List Idx) : Option Placed :=
  placed.reverse.find? fun p => pagePath p.addr = q

def paths (placed : List Placed) : List (List Idx) := placed.map fun p => pagePath p.addr

theorem lastAt_append (first second : List Placed) (q : List Idx) :
    lastAt (first ++ second) q = (lastAt second q).or (lastAt first q) := by
  rw [lastAt, List.reverse_append, List.find?_append]
  rfl

theorem lastAt_snoc (placed : List Placed) (p : Placed) (q : List Idx) :
    lastAt (placed ++ [p]) q = if pagePath p.addr = q then some p else lastAt placed q := by
  rw [lastAt_append]
  by_cases here : pagePath p.addr = q
  · rw [if_pos here, lastAt, List.reverse_singleton, List.find?_cons_of_pos (by simpa using here),
      Option.some_or]
  · rw [if_neg here, lastAt, List.reverse_singleton, List.find?_cons_of_neg (by simpa using here),
      List.find?_nil, Option.none_or]

theorem lastAt_none {placed : List Placed} {q : List Idx} :
    lastAt placed q = none ↔ q ∉ paths placed := by
  simp only [lastAt, List.find?_eq_none, List.mem_reverse, decide_eq_true_eq, paths, List.mem_map,
    not_exists, not_and]

variable {k r : Nat} {s₀ s s' : MemState} {g₀ g g' : SpaceGhost} {placed : List Placed}

/-- Pages have been mapped in the space `r`, which was empty: its leaves are those of the pages
that were mapped last, with their bytes behind them, and a frame was lost exactly if a page
was mapped twice. -/
structure Filling (k r : Nat) (s₀ : MemState) (g₀ : SpaceGhost) (placed : List Placed)
    (s : MemState) (g : SpaceGhost) : Prop extends Grow s₀ g₀ s g where
  vm : Vm k s g
  live : ∀ o, (spaceLayout k).Live g o ↔ (spaceLayout k).Live g₀ o
  others : ∀ x : Owner × List Idx, x.1 ≠ .user r → g.leaf x = g₀.leaf x
  blank : ∀ q, lastAt placed q = none → g.leaf (.user r, q) = 0#64
  filled : ∀ q p, lastAt placed q = some p → ∃ f, f < 2 ^ 40 ∧
    g.leaf (.user r, q) = leafEntry (frameAddr f) p.flags ∧
    ∀ i, i < 4096 → getByte (s.mem f) i = p.bytes i
  user : ∀ p ∈ placed, p.addr < userSpaceTop ∧ p.addr.toNat % 4096 = 0
  ext : ∀ f, g₀.ext f ≤ g.ext f
  range : ∀ f, ¬ f < s₀.pmm.totalFrames → g.ext f = g₀.ext f
  leaks : g.ext = g₀.ext ↔ (paths placed).Nodup

theorem leafEntry_ne_zero (f : Nat) (flags : Word) : leafEntry (frameAddr f) flags ≠ 0#64 := by
  refine ne_zero_of_bit (k := 0) ?_
  rw [leafEntry_low f flags (by decide)]
  simp

namespace Filling

theorem start (h : Vm k s g) (empty : ∀ q, g.leaf (.user r, q) = 0#64) :
    Filling k r s g [] s g where
  toGrow := .refl h.ok rfl
  vm := h
  live _ := Iff.rfl
  others _ _ := rfl
  blank q _ := empty q
  filled q p found := by cases found
  user := by simp
  ext _ := le_refl _
  range _ _ := rfl
  leaks := by simp [paths]

/-- What stands behind a page stays there while other things grow. -/
theorem kept (h : Filling k r s₀ g₀ placed s g) (grown : Grow s g s' g') {q : List Idx} {p : Placed}
    (found : lastAt placed q = some p) (same : g'.leaf (.user r, q) = g.leaf (.user r, q)) :
    ∃ f, f < 2 ^ 40 ∧ g'.leaf (.user r, q) = leafEntry (frameAddr f) p.flags ∧
      ∀ i, i < 4096 → getByte (s'.mem f) i = p.bytes i := by
  obtain ⟨f, small, leaf, bytes⟩ := h.filled q p found
  have filled : g.leaf (.user r, q) ≠ 0#64 := by
    rw [leaf]
    exact leafEntry_ne_zero f p.flags
  obtain ⟨_, _, data, used⟩ := h.vm.leaf_facts filled
  rw [leaf, leafEntry_frame small] at data used
  refine ⟨f, small, same.trans leaf, ?_⟩
  rw [(grown.data data used).2.2]
  exact bytes

theorem quiet (h : Filling k r s₀ g₀ placed s g) (grown : Grow s g s' g') (vm : Vm k s' g')
    (live : ∀ o, (spaceLayout k).Live g' o ↔ (spaceLayout k).Live g o) (leaf : g'.leaf = g.leaf)
    (ext : g'.ext = g.ext) : Filling k r s₀ g₀ placed s' g' where
  toGrow := h.toGrow.trans grown
  vm := vm
  live o := (live o).trans (h.live o)
  others x other := by rw [leaf, h.others x other]
  blank q none_ := by rw [leaf, h.blank q none_]
  filled q p found := h.kept grown found (by rw [leaf])
  user := h.user
  ext f := by rw [ext]; exact h.ext f
  range f beyond := by rw [ext]; exact h.range f beyond
  leaks := by rw [ext, h.leaks]

/-- One more page: if the path was taken, the frame behind it is lost. -/
theorem snoc (h : Filling k r s₀ g₀ placed s g) {p : Placed} {page : Page}
    (below : p.addr < userSpaceTop) (aligned : p.addr.toNat % 4096 = 0)
    (bytes : ∀ i, i < 4096 → getByte page i = p.bytes i)
    (done : FreshResult k s g (.user r, pagePath p.addr) p.flags page true s' g') :
    Filling k r s₀ g₀ (placed ++ [p]) s' g' := by
  obtain ⟨f, lt, zero, contents, leaf, ext⟩ := done.effect
  have here : g'.leaf (.user r, pagePath p.addr) = leafEntry (frameAddr f) p.flags := by
    rw [leaf, Function.update_self]
  have elsewhere : ∀ q, q ≠ pagePath p.addr → g'.leaf (.user r, q) = g.leaf (.user r, q) := by
    intro q ne
    rw [leaf, Function.update_of_ne]
    exact fun same => ne (Prod.mk.inj same).2
  have more : ∀ f', g.ext f' ≤ g'.ext f' := by
    intro f'
    rw [ext f']
    exact Nat.le_add_right _ _
  refine ⟨h.toGrow.trans done.toGrow, done.vm, fun o => (done.live o).trans (h.live o), ?_, ?_, ?_,
    ?_, fun f' => (h.ext f').trans (more f'), ?_, ?_⟩
  · intro x other
    rw [leaf, Function.update_of_ne (fun same => other (by rw [same])), h.others x other]
  · intro q none_
    rw [lastAt_snoc] at none_
    split at none_
    · cases none_
    · rename_i other
      rw [elsewhere q (Ne.symm other), h.blank q none_]
  · intro q p' found
    rw [lastAt_snoc] at found
    split at found
    · rename_i same
      obtain rfl := Option.some.inj found
      rw [← same]
      refine ⟨f, h.vm.frame_small lt, here, ?_⟩
      rw [contents]
      exact bytes
    · rename_i other
      exact h.kept done.toGrow found (elsewhere q (Ne.symm other))
  · intro p' member
    rcases List.mem_append.mp member with old | new
    · exact h.user p' old
    · rw [List.mem_singleton.mp new]
      exact ⟨below, aligned⟩
  · intro f' beyond
    rw [ext f', if_neg, Nat.add_zero, h.range f' beyond]
    rintro ⟨filled, rfl⟩
    have inside := (h.vm.leaf_facts filled).2.1
    rw [h.evolves.total] at inside
    exact beyond inside
  · have step : (paths (placed ++ [p])).Nodup ↔
        (paths placed).Nodup ∧ pagePath p.addr ∉ paths placed := by
      rw [paths, List.map_append, ← paths, List.map_singleton, List.nodup_append]
      simp only [List.nodup_singleton, true_and, List.mem_singleton, forall_eq]
      refine and_congr_right fun _ => ⟨fun apart member => apart _ member rfl, ?_⟩
      rintro off q member rfl
      exact off member
    rw [step, ← h.leaks]
    by_cases taken : pagePath p.addr ∈ paths placed
    · -- the old leaf named a frame, whose reference is now nobody's
      have filled : g.leaf (.user r, pagePath p.addr) ≠ 0#64 := by
        cases found : lastAt placed (pagePath p.addr) with
        | none => exact absurd taken (lastAt_none.mp found)
        | some old =>
          obtain ⟨f', _, leaf', _⟩ := h.filled _ _ found
          rw [leaf']
          exact leafEntry_ne_zero f' old.flags
      refine ⟨fun same => ?_, fun both => absurd taken both.2⟩
      have lost := ext (frameOf (g.leaf (.user r, pagePath p.addr)))
      rw [if_pos ⟨filled, rfl⟩, same] at lost
      have least := h.ext (frameOf (g.leaf (.user r, pagePath p.addr)))
      omega
    · have empty := h.blank _ (lastAt_none.mpr taken)
      have same : g'.ext = g.ext := by
        funext f'
        rw [ext f', if_neg (by simp [empty]), Nat.add_zero]
      rw [same]
      exact ⟨fun equal => ⟨equal, taken⟩, And.left⟩

end Filling

/-! ## The page of a segment -/

/-- The byte a segment has at an address. -/
def segmentByte (file : List Byte) (ph : Elf64Phdr) (a : Nat) : Byte :=
  if ph.pVaddr.toNat ≤ a ∧ a < ph.pVaddr.toNat + ph.pFilesz.toNat then
    file.getD (ph.pOffset.toNat + (a - ph.pVaddr.toNat)) 0#8
  else 0#8

def place (file : List Byte) (ph : Elf64Phdr) (v : Word) : Placed :=
  ⟨v, segmentFlags ph, fun i => segmentByte file ph (v.toNat + i)⟩

variable {file : List Byte} {ph : Elf64Phdr}

theorem getD_take_drop {α : Type} (xs : List α) (d : α) {start n i : Nat} (lt : i < n) :
    ((xs.drop start).take n).getD i d = xs.getD (start + i) d := by
  rw [List.getD_eq_getElem?_getD, List.getD_eq_getElem?_getD, List.getElem?_take_of_lt lt,
    List.getElem?_drop]

/-- `map_segment_page` copies the part of the segment's file bytes that lies in the page. -/
theorem segmentBytes_value {page : Word} {off : Nat} {bytes : List Byte}
    (ok : segmentOk file ph = true) (below : page.toNat < 2 ^ 47)
    (found : segmentBytes file ph page = some (off, bytes)) {i : Nat} (lt : i < 4096) :
    (if off ≤ i ∧ i < off + bytes.length then bytes.getD (i - off) 0#8 else 0#8) =
      segmentByte file ph (page.toNat + i) := by
  obtain ⟨shorter, inUser⟩ := segmentOk_inside ok
  have fileEnd : (ph.pVaddr + ph.pFilesz).toNat = ph.pVaddr.toNat + ph.pFilesz.toNat := by
    rw [BitVec.toNat_add]
    omega
  have pageEnd : (page + pageSize).toNat = page.toNat + 4096 := by
    rw [BitVec.toNat_add, show pageSize.toNat = 4096 from rfl]
    omega
  unfold segmentBytes at found
  dsimp only at found
  generalize first : (if ph.pVaddr < page then page else ph.pVaddr) = copyStart at found
  generalize last : (if page + pageSize < ph.pVaddr + ph.pFilesz then page + pageSize
    else ph.pVaddr + ph.pFilesz) = copyEnd at found
  have start : copyStart.toNat = max page.toNat ph.pVaddr.toNat := by
    rw [← first]
    split
    · rename_i before
      exact (Nat.max_eq_left (Nat.le_of_lt before)).symm
    · rename_i after
      exact (Nat.max_eq_right (BitVec.not_lt.mp after)).symm
  have stop : copyEnd.toNat = min (page.toNat + 4096) (ph.pVaddr.toNat + ph.pFilesz.toNat) := by
    rw [← last, ← pageEnd, ← fileEnd]
    split
    · rename_i before
      exact (Nat.min_eq_left (Nat.le_of_lt before)).symm
    · rename_i after
      exact (Nat.min_eq_right (BitVec.not_lt.mp after)).symm
  unfold segmentByte
  by_cases copies : copyStart < copyEnd
  · rw [if_pos copies] at found
    split at found
    · rename_i inside
      obtain ⟨rfl, rfl⟩ := Prod.mk.inj (Option.some.inj found)
      rw [rangeOk_iff, BitVec.toNat_ofNat] at inside
      have before : copyStart.toNat < copyEnd.toNat := copies
      have skip : (copyStart - ph.pVaddr).toNat = copyStart.toNat - ph.pVaddr.toNat :=
        BitVec.toNat_sub_of_le (by rw [BitVec.le_def]; omega)
      have size : (copyEnd - copyStart).toNat = copyEnd.toNat - copyStart.toNat :=
        BitVec.toNat_sub_of_le (Nat.le_of_lt before)
      have dst : (copyStart - page).toNat = copyStart.toNat - page.toNat :=
        BitVec.toNat_sub_of_le (by rw [BitVec.le_def]; omega)
      have fileOff : (ph.pOffset + (copyStart - ph.pVaddr)).toNat =
          ph.pOffset.toNat + (copyStart.toNat - ph.pVaddr.toNat) := by
        have room := segmentOk_file ok
        rw [BitVec.toNat_add, skip]
        omega
      have length : ((file.drop (ph.pOffset + (copyStart - ph.pVaddr)).toNat).take
          (copyEnd - copyStart).toNat).length = copyEnd.toNat - copyStart.toNat := by
        have wraps := Nat.mod_le file.length (2 ^ 64)
        rw [List.length_take, List.length_drop, size]
        omega
      rw [length, dst, fileOff, size]
      by_cases mine : ph.pVaddr.toNat ≤ page.toNat + i ∧
          page.toNat + i < ph.pVaddr.toNat + ph.pFilesz.toNat
      · have index : ph.pOffset.toNat + (copyStart.toNat - ph.pVaddr.toNat) +
            (i - (copyStart.toNat - page.toNat)) =
            ph.pOffset.toNat + (page.toNat + i - ph.pVaddr.toNat) := by omega
        rw [if_pos (by omega), if_pos mine, getD_take_drop _ _ (by omega), index]
      · rw [if_neg (by omega), if_neg mine]
    · cases found
  · rw [if_neg copies] at found
    obtain ⟨rfl, rfl⟩ := Prod.mk.inj (Option.some.inj found)
    have none_ : copyEnd.toNat ≤ copyStart.toNat := BitVec.not_lt.mp copies
    rw [if_neg (by simp), if_neg (by omega)]

/-- One page of a segment: mapped with the segment's bytes and flags, or nothing changed. -/
theorem mapSegmentPage_spec (h : Vm k s g) (live : (spaceLayout k).Live g (.user r)) {virt : Word}
    (page : UserPage virt) (below : virt.toNat < 2 ^ 47) (aligned : virt.toNat % 4096 = 0)
    (ok : segmentOk file ph = true) :
    wp (mapSegmentPage r file ph virt) (fun done s' => ∃ contents g',
      (done = true → ∀ i, i < 4096 → getByte contents i = (place file ph virt).bytes i) ∧
      FreshResult k s g (.user r, pagePath virt) (segmentFlags ph) contents done s' g')
      Saturated s := by
  have same : alignDown virt pageSize = virt := by
    apply BitVec.eq_of_toNat_eq
    rw [alignDown_page_toNat]
    omega
  have bit : (segmentFlags ph).getLsbD 2 = true := by
    have user := segmentFlags_user ph
    rwa [ne_eq, and_user, Bool.not_eq_false] at user
  have nothing : ∀ {s₁ g₁}, Quiet k s g s₁ g₁ → ∃ contents g',
      (false = true → ∀ i, i < 4096 → getByte contents i = (place file ph virt).bytes i) ∧
      FreshResult k s g (.user r, pagePath virt) (segmentFlags ph) contents false s₁ g' :=
    fun quiet => ⟨blankPage, _, nofun, quiet.toGrow, quiet.vm, quiet.live, quiet.leaf, quiet.ext⟩
  unfold mapSegmentPage
  rw [wp_bind]
  apply allocFrame_spec h
  · intro _
    exact nothing (.refl h)
  intro f q lt zero evolves counts _
  have small := h.frame_small lt
  rw [wp_bind, wp_zeroFrame, frameOf_frameAddr small]
  dsimp only
  rw [same]
  cases copied : segmentBytes file ph virt with
  | none =>
    dsimp only
    rw [wp_bind]
    refine freeFrame_spec evolves.ok (by change f < q.totalFrames; rwa [evolves.total])
      (by change 0 < q.refcount f; rw [counts, Function.update_self]; decide) ?_
    intro q' evolves' counts'
    exact nothing (h.borrowed lt zero evolves counts evolves' counts' _)
  | some part =>
    obtain ⟨off, bytes⟩ := part
    dsimp only
    refine wp_seq (writeBytes_contents small off (segmentBytes_fits ok below copied)) ?_
    rintro _ s₁ ⟨contents, rfl, value⟩
    dsimp only
    rw [Function.update_idem]
    have held := (h.fresh lt zero evolves counts contents).2
    refine wp_imp (mapOrFree_spec h lt zero evolves counts contents
      (vmmMapPage_spec held live page (by change f < q.totalFrames; rwa [evolves.total])
        (by simp) bit)) ?_
    rintro done s' ⟨g', result, _⟩
    refine ⟨contents, g', fun _ i small => ?_, result⟩
    rw [value i small]
    dsimp only
    rw [Function.update_self, getByte_blank]
    exact segmentBytes_value ok below copied small

/-! ## The segments of a file -/

def loads (phs : List Elf64Phdr) : List Elf64Phdr := phs.filter fun ph => ph.pType = ptLoad

/-- The pages the loader maps for the program headers, in its order. -/
def segmentsPlaced (file : List Byte) (phs : List Elf64Phdr) : List Placed :=
  (loads phs).flatMap fun ph => (segmentPages ph).map (place file ph)

theorem loads_append (phs phs' : List Elf64Phdr) : loads (phs ++ phs') = loads phs ++ loads phs' :=
  List.filter_append ..

theorem loads_load (load : ph.pType = ptLoad) : loads [ph] = [ph] :=
  List.filter_cons_of_pos (by simpa using load)

theorem loads_skip (skip : ph.pType ≠ ptLoad) : loads [ph] = [] :=
  List.filter_cons_of_neg (by simpa using skip)

theorem segmentsPlaced_append (phs phs' : List Elf64Phdr) :
    segmentsPlaced file (phs ++ phs') = segmentsPlaced file phs ++ segmentsPlaced file phs' := by
  rw [segmentsPlaced, loads_append, List.flatMap_append]
  rfl

/-- The page of an address meets the memory of the segment. -/
def Touches (ph : Elf64Phdr) (a : Nat) : Prop :=
  ph.pVaddr.toNat / 4096 ≤ a / 4096 ∧ a / 4096 * 4096 < ph.pVaddr.toNat + ph.pMemsz.toNat

instance (ph : Elf64Phdr) (a : Nat) : Decidable (Touches ph a) :=
  inferInstanceAs (Decidable (_ ∧ _))

theorem mem_segmentPages (ok : segmentOk file ph = true) {v : Word} :
    v ∈ segmentPages ph ↔ v.toNat % 4096 = 0 ∧ Touches ph v.toNat := by
  obtain ⟨_, inUser⟩ := segmentOk_inside ok
  have top : (ph.pVaddr + ph.pMemsz).toNat = ph.pVaddr.toNat + ph.pMemsz.toNat := by
    rw [BitVec.toNat_add]
    omega
  have first := alignDown_page_toNat ph.pVaddr
  have last := alignUp_page_toNat (ph.pVaddr + ph.pMemsz)
  rw [segmentPages, mem_pageRange_iff (by omega) (by omega), first, Touches]
  omega

/-- What the loop over the headers has learnt about the ends of the segments. -/
def Covers (seen : List Elf64Phdr) (highest : Option Word) : Prop :=
  ∀ ph ∈ loads seen, ∃ top, highest = some top ∧ ph.pVaddr.toNat + ph.pMemsz.toNat ≤ top.toNat

theorem loadSegment_filling (h : Filling k r s₀ g₀ placed s g)
    (live : (spaceLayout k).Live g₀ (.user r)) {highest : Option Word}
    (high : ph.pType = ptLoad → 2 ^ 30 ≤ ph.pVaddr.toNat) :
    wp (loadSegment r file highest ph) (fun result s' => ∃ more g',
      Filling k r s₀ g₀ (placed ++ more) s' g' ∧ more <+: segmentsPlaced file [ph] ∧
      ∀ next, result = some next → more = segmentsPlaced file [ph] ∧
        (∀ ph' ∈ loads [ph], segmentOk file ph' = true) ∧
        ∀ seen, Covers seen highest → Covers (seen ++ [ph]) next) Saturated s := by
  unfold loadSegment
  apply wp_ite
  · intro skip
    refine ⟨[], g, by rwa [List.append_nil], List.nil_prefix, ?_⟩
    rintro next ⟨rfl⟩
    refine ⟨by rw [segmentsPlaced, loads_skip skip]; rfl, by simp [loads_skip skip],
      fun seen covers ph' member => ?_⟩
    rw [loads_append, loads_skip skip, List.append_nil] at member
    exact covers ph' member
  intro load
  have load := not_not.mp load
  have one : segmentsPlaced file [ph] = (segmentPages ph).map (place file ph) := by
    rw [segmentsPlaced, loads_load load, List.flatMap_singleton]
  apply wp_ite
  · intro _
    exact ⟨[], g, by rwa [List.append_nil], List.nil_prefix, fun next none_ => by cases none_⟩
  intro ok
  have ok := not_not.mp ok
  obtain ⟨_, inUser⟩ := segmentOk_inside ok
  have top : (ph.pVaddr + ph.pMemsz).toNat = ph.pVaddr.toNat + ph.pMemsz.toNat := by
    rw [BitVec.toNat_add]
    omega
  have low := high load
  have loop : wp ((segmentPages ph).allM (mapSegmentPage r file ph)) (fun done s' =>
      if done then ∃ g', Filling k r s₀ g₀ (placed ++ (segmentPages ph).map (place file ph)) s' g'
      else ∃ more g', Filling k r s₀ g₀ (placed ++ more) s' g' ∧
        more <+: (segmentPages ph).map (place file ph)) Saturated s := by
    refine wp_allM (fun done s₁ => ∃ g₁, Filling k r s₀ g₀ (placed ++ done.map (place file ph)) s₁ g₁)
      (fun s₁ => ∃ more g₁, Filling k r s₀ g₀ (placed ++ more) s₁ g₁ ∧
        more <+: (segmentPages ph).map (place file ph)) (segmentPages ph) ?_ ⟨g, by simpa using h⟩
    rintro done v rest s₁ split ⟨g₁, now⟩
    obtain ⟨aligned, touches⟩ := (mem_segmentPages ok).mp (by rw [split]; simp : v ∈ segmentPages ph)
    have below : v.toNat < 2 ^ 47 := by
      have := touches.2
      omega
    have page : UserPage v := by
      refine userPage_of_range ?_ below
      have := touches.1
      omega
    refine wp_imp (mapSegmentPage_spec now.vm ((now.live _).mpr live) page below aligned ok) ?_
    rintro (_ | _) s₂ ⟨contents, g₂, bytes, result⟩
    · refine ⟨done.map (place file ph), g₂, now.quiet result.toGrow result.vm result.live
        result.effect.1 result.effect.2, ?_⟩
      rw [split, List.map_append]
      exact List.prefix_append _ _
    · refine ⟨g₂, ?_⟩
      rw [List.map_append, ← List.append_assoc]
      exact now.snoc (p := place file ph v) below aligned (bytes rfl) result
  refine wp_seq loop ?_
  rintro (_ | _) s₁ outcome
  · obtain ⟨more, g₁, now, order⟩ := outcome
    exact ⟨more, g₁, now, by rwa [one], fun next none_ => by cases none_⟩
  · obtain ⟨g₁, now⟩ := outcome
    refine ⟨_, g₁, now, by rw [one], ?_⟩
    rintro next ⟨rfl⟩
    refine ⟨one.symm, by simpa [loads_load load] using ok,
      fun seen covers ph' member => ⟨_, rfl, ?_⟩⟩
    rw [loads_append, loads_load load, List.mem_append, List.mem_singleton] at member
    rcases member with old | rfl
    · obtain ⟨before, rfl, le⟩ := covers ph' old
      split
      · rename_i raised
        have := BitVec.lt_def.mp raised
        simp only [Option.getD_some] at this
        omega
      · exact le
    · split
      · omega
      · rename_i stays
        have := BitVec.not_lt.mp stays
        rw [BitVec.le_def] at this
        omega

theorem loadSegments_filling (live : (spaceLayout k).Live g₀ (.user r)) {phs : List Elf64Phdr} :
    ∀ {highest : Option Word} {placed : List Placed} {s : MemState} {g : SpaceGhost},
    Filling k r s₀ g₀ placed s g → (∀ ph ∈ loads phs, 2 ^ 30 ≤ ph.pVaddr.toNat) →
    wp (loadSegments r file highest phs) (fun result s' => ∃ more g',
      Filling k r s₀ g₀ (placed ++ more) s' g' ∧ more <+: segmentsPlaced file phs ∧
      ∀ next, result = some next → more = segmentsPlaced file phs ∧
        (∀ ph ∈ loads phs, segmentOk file ph = true) ∧
        ∀ seen, Covers seen highest → Covers (seen ++ phs) next) Saturated s := by
  induction phs with
  | nil =>
    intro highest placed s g h _
    refine ⟨[], g, by rwa [List.append_nil], List.nil_prefix, ?_⟩
    rintro next ⟨rfl⟩
    exact ⟨rfl, by simp [loads], fun seen covers => by rwa [List.append_nil]⟩
  | cons ph rest ih =>
    intro highest placed s g h high
    rw [← List.singleton_append, loads_append] at high
    have placing : segmentsPlaced file (ph :: rest) =
        segmentsPlaced file [ph] ++ segmentsPlaced file rest := segmentsPlaced_append [ph] rest
    have first : ph.pType = ptLoad → 2 ^ 30 ≤ ph.pVaddr.toNat := fun load =>
      high ph (by simp [loads_load load])
    rw [loadSegments]
    refine wp_seq (loadSegment_filling h live first) ?_
    rintro (_ | next) s₁ ⟨more, g₁, now, order, outcome⟩
    · refine ⟨more, g₁, now, ?_, fun next none_ => by cases none_⟩
      rw [placing]
      exact order.trans (List.prefix_append _ _)
    · obtain ⟨rfl, ok, covers⟩ := outcome next rfl
      refine wp_imp (ih now (fun ph' member => high ph' (List.mem_append_right _ member))) ?_
      rintro result s₂ ⟨more, g₂, now₂, order₂, outcome₂⟩
      refine ⟨segmentsPlaced file [ph] ++ more, g₂, by rwa [← List.append_assoc], ?_, ?_⟩
      · rw [placing]
        exact (List.prefix_append_right_inj _).mpr order₂
      · intro last found
        obtain ⟨rfl, ok₂, covers₂⟩ := outcome₂ last found
        refine ⟨placing.symm, ?_, fun seen before => ?_⟩
        · intro ph' member
          rw [← List.singleton_append, loads_append, List.mem_append] at member
          exact member.elim (ok ph') (ok₂ ph')
        · have both := covers₂ (seen ++ [ph]) (covers seen before)
          rwa [List.append_assoc, List.singleton_append] at both

/-- What `elf_load_user_image` does to the space it fills. -/
theorem elfLoadUserImage_filling (live : (spaceLayout k).Live g₀ (.user r))
    (h : Filling k r s₀ g₀ [] s g) (high : ∀ ph ∈ loads (phdrs file), 2 ^ 30 ≤ ph.pVaddr.toNat) :
    wp (elfLoadUserImage r file) (fun result s' => ∃ placed g',
      Filling k r s₀ g₀ placed s' g' ∧ placed <+: segmentsPlaced file (phdrs file) ∧
      ∀ entry base, result = some (entry, base) → placed = segmentsPlaced file (phdrs file) ∧
        (∀ ph ∈ loads (phdrs file), segmentOk file ph = true ∧
          ph.pVaddr.toNat + ph.pMemsz.toNat ≤ base.toNat) ∧ base.toNat % 4096 = 0) Saturated s := by
  unfold elfLoadUserImage
  apply wp_ite
  · intro _
    refine wp_seq (wp_and (loadSegments_filling live h high)
      (loadSegments_end r (fun top none_ => by cases none_))) ?_
    rintro result s₁ ⟨⟨more, g₁, now, order, outcome⟩, ends⟩
    match result with
    | none => exact ⟨more, g₁, now, order, fun _ _ none_ => by cases none_⟩
    | some none => exact ⟨more, g₁, now, order, fun _ _ none_ => by cases none_⟩
    | some (some highest) =>
      obtain ⟨all, ok, covers⟩ := outcome _ rfl
      refine ⟨more, g₁, now, order, ?_⟩
      intro entry base found
      obtain ⟨-, rfl⟩ := Prod.mk.inj (Option.some.inj found)
      have value := alignUp_page_toNat highest
      have top := ends highest rfl
      refine ⟨all, fun ph member => ⟨ok ph member, ?_⟩, by omega⟩
      obtain ⟨_, same, le⟩ := covers [] (by simp [Covers, loads]) ph (by simpa using member)
      obtain rfl := Option.some.inj same
      omega
  · intro _
    exact ⟨[], g, h, List.nil_prefix, fun _ _ none_ => by cases none_⟩

/-! ## The whole image -/

/-- The stack page that `load_user_image` maps last. -/
def stackPlaced : Placed := ⟨userStackTop - pageSize, vmmUser ||| vmmWrite ||| vmmNx, fun _ => 0#8⟩

theorem mapStackPage_filling (live : (spaceLayout k).Live g₀ (.user r))
    (h : Filling k r s₀ g₀ placed s g) :
    wp (mapStackPage r) (fun result s' => ∃ g', match result with
      | none => Filling k r s₀ g₀ placed s' g'
      | some _ => Filling k r s₀ g₀ (placed ++ [stackPlaced]) s' g') Saturated s := by
  unfold mapStackPage
  rw [wp_bind]
  apply allocFrame_spec h.vm
  · intro _
    exact ⟨g, h⟩
  intro f q lt zero evolves counts _
  have small := h.vm.frame_small lt
  have held := (h.vm.fresh lt zero evolves counts blankPage).2
  rw [wp_bind, wp_zeroFrame, frameOf_frameAddr small]
  refine wp_seq (mapOrFree_spec h.vm lt zero evolves counts blankPage
    (vmmMapPage_spec held ((h.live _).mpr live) (by decide)
      (by change f < q.totalFrames; rwa [evolves.total]) (by simp) (by decide))) ?_
  rintro (_ | _) s' ⟨g', result, _⟩
  · exact ⟨g', h.quiet result.toGrow result.vm result.live result.effect.1 result.effect.2⟩
  · exact ⟨g', h.snoc (p := stackPlaced) (by decide) (by decide) (fun i _ => getByte_blank i) result⟩

/-- What `load_user_image` does: it could not make a space, or it made one, filled it in part and
destroyed it again, or it made one and filled it with the segments and the stack page. -/
theorem loadUserImage_spec (h : Vm k s g) (cur : 0 < s.pmm.refcount s.cr3)
    (low : s.mem s.cr3 0 &&& vmmPresent ≠ 0#64 → 0 < s.pmm.refcount (frameOf (s.mem s.cr3 0)))
    (high : ∀ ph ∈ loads (phdrs file), 2 ^ 30 ≤ ph.pVaddr.toNat) :
    wp (loadUserImage file) (fun result s' => match result with
      | none => (∃ g', Quiet k s g s' g') ∨ ∃ r s₁ g₁ placed s₂ g₂ g₃, Created k r s g s₁ g₁ ∧
          Filling k r s₁ g₁ placed s₂ g₂ ∧ Destroyed k r s₂ g₂ s' g₃ ∧
          placed <+: segmentsPlaced file (phdrs file)
      | some image => ∃ s₁ g₁ g₂, Created k image.cr3 s g s₁ g₁ ∧
          Filling k image.cr3 s₁ g₁ (segmentsPlaced file (phdrs file) ++ [stackPlaced]) s' g₂)
      Saturated s := by
  unfold loadUserImage
  apply wp_ite
  · intro _
    exact .inl ⟨g, .refl h⟩
  intro _
  refine wp_seq (vmmCreateAddressSpace_spec h cur low) ?_
  rintro (_ | r) s₁ ⟨g₁, made⟩
  · exact .inl ⟨g₁, made⟩
  have live : (spaceLayout k).Live g₁ (.user r) := (made.live _).mpr (.inr rfl)
  have empty : ∀ q, g₁.leaf (.user r, q) = 0#64 := by
    intro q
    rw [made.leaf]
    exact (h.unused_root made.unused.1 made.unused.2).2 q
  refine wp_seq (elfLoadUserImage_filling live (.start made.vm empty) high) ?_
  rintro (_ | ⟨entry, base⟩) s₂ ⟨placed, g₂, filling, order, outcome⟩
  · refine wp_seq (vmmDestroyUserAddressSpace_spec filling.vm ((filling.live _).mpr live)) ?_
    rintro _ s₃ ⟨g₃, gone⟩
    exact .inr ⟨r, s₁, g₁, placed, s₂, g₂, g₃, made, filling, gone, order⟩
  obtain ⟨rfl, _⟩ := outcome entry base rfl
  refine wp_seq (mapStackPage_filling live filling) ?_
  rintro (_ | phys) s₃ ⟨g₃, mapped⟩
  · refine wp_seq (vmmDestroyUserAddressSpace_spec mapped.vm ((mapped.live _).mpr live)) ?_
    rintro _ s₄ ⟨g₄, gone⟩
    exact .inr ⟨r, s₁, g₁, _, s₃, g₃, g₄, made, mapped, gone, order⟩
  · exact ⟨s₁, g₁, g₃, made, mapped⟩

/-! ## What a user finds -/

/-- The segment that touched the page of an address last. -/
def owner (phs : List Elf64Phdr) (a : Nat) : Option Elf64Phdr :=
  (loads phs).reverse.find? fun ph => Touches ph a

theorem touches_page (ph : Elf64Phdr) (v : Word) :
    Touches ph (alignDown v pageSize).toNat ↔ Touches ph v.toNat := by
  rw [alignDown_page_toNat, Touches, Touches, Nat.mul_div_cancel _ (by decide)]

theorem lastAt_segment (ok : segmentOk file ph = true) {v : Word} (below : v < userSpaceTop) :
    lastAt ((segmentPages ph).map (place file ph)) (pagePath v) =
      if Touches ph v.toNat then some (place file ph (alignDown v pageSize)) else none := by
  obtain ⟨_, inUser⟩ := segmentOk_inside ok
  -- the one page of the segment with this path is that of the address
  have only : ∀ w ∈ segmentPages ph, pagePath w = pagePath v → w = alignDown v pageSize := by
    intro w member path
    obtain ⟨aligned, touches⟩ := (mem_segmentPages ok).mp member
    have lt : w < userSpaceTop := by
      rw [lt_userSpaceTop]
      have := touches.2
      omega
    rw [pagePath_user lt below] at path
    apply BitVec.eq_of_toNat_eq
    rw [alignDown_page_toNat]
    omega
  have member : alignDown v pageSize ∈ segmentPages ph ↔ Touches ph v.toNat := by
    rw [mem_segmentPages ok, touches_page, alignDown_page_toNat]
    simp
  cases found : lastAt ((segmentPages ph).map (place file ph)) (pagePath v) with
  | none =>
    rw [if_neg]
    intro touches
    refine lastAt_none.mp found ?_
    rw [paths, List.map_map]
    exact List.mem_map.mpr ⟨_, member.mpr touches, pagePath_alignDown v⟩
  | some p =>
    unfold lastAt at found
    have path : pagePath p.addr = pagePath v := by simpa using List.find?_some found
    have inside := List.mem_reverse.mp (List.mem_of_find?_eq_some found)
    obtain ⟨w, here, rfl⟩ := List.mem_map.mp inside
    obtain rfl := only w here path
    rw [if_pos (member.mp here)]

theorem lastAt_segments {phs : List Elf64Phdr} (ok : ∀ ph ∈ loads phs, segmentOk file ph = true)
    {v : Word} (below : v < userSpaceTop) :
    lastAt (segmentsPlaced file phs) (pagePath v) =
      (owner phs v.toNat).map fun ph => place file ph (alignDown v pageSize) := by
  unfold segmentsPlaced owner
  revert ok
  induction loads phs with
  | nil => exact fun _ => rfl
  | cons ph rest ih =>
    intro ok
    rw [List.flatMap_cons, lastAt_append, ih (fun ph' member => ok ph' (List.mem_cons_of_mem _ member)),
      lastAt_segment (ok ph (List.mem_cons_self ..)) below, List.reverse_cons, List.find?_append]
    cases rest.reverse.find? fun ph => Touches ph v.toNat with
    | some later => rfl
    | none =>
      rw [Option.map_none, Option.none_or, Option.none_or]
      split
      · rename_i touches
        rw [List.find?_cons_of_pos (by simpa using touches)]
        rfl
      · rename_i off
        rw [List.find?_cons_of_neg (by simpa using off)]
        rfl

namespace Filling

variable {v : Word}

theorem flags (h : Filling k r s₀ g₀ placed s g) (live : (spaceLayout k).Live g₀ (.user r))
    (page : UserPage v) {p : Placed} (found : lastAt placed (pagePath v) = some p) :
    vmmGetFlags s.mem r v = p.flags &&& ~~~vmmPhysMask ||| vmmPresent := by
  obtain ⟨f, _, leaf, _⟩ := h.filled _ _ found
  rw [vmmGetFlags_user h.vm ((h.live _).mpr live) page, leaf, leafEntry_flags]

/-- A user reads the bytes of the page that was mapped last. -/
theorem load (h : Filling k r s₀ g₀ placed s g) (live : (spaceLayout k).Live g₀ (.user r))
    (page : UserPage v) :
    userLoad s.mem r v = (lastAt placed (pagePath v)).map fun p => p.bytes (v.toNat % 4096) := by
  have live' := (h.live _).mpr live
  rw [userLoad, vmmGetFlags_user h.vm live' page, vmmGetPhysical_user h.vm live' page]
  cases found : lastAt placed (pagePath v) with
  | none =>
    rw [h.blank _ found]
    rfl
  | some p =>
    obtain ⟨f, small, leaf, bytes⟩ := h.filled _ _ found
    have filled : g.leaf (.user r, pagePath v) ≠ 0#64 := by
      rw [leaf]
      exact leafEntry_ne_zero f p.flags
    have ok := leafOk_user_iff.mp (h.vm.leaf_facts filled).1
    have both : g.leaf (.user r, pagePath v) &&& ~~~vmmPhysMask &&& presentUser = presentUser := by
      rw [and_presentUser, and_not_physMask_low _ (by decide), and_not_physMask_low _ (by decide)]
      exact ok
    rw [if_pos both, if_neg filled, Option.map_some, Option.map_some, Mm.phys_frame, phys_offset, leaf,
      leafEntry_frame small, bytes _ (Nat.mod_lt _ (by decide))]

end Filling

/-- The flags of a segment's page, as `vmm_get_flags` reports them. -/
theorem segmentFlags_bits (ph : Elf64Phdr) :
    ((segmentFlags ph &&& ~~~vmmPhysMask ||| vmmPresent) &&& vmmWrite ≠ 0#64 ↔ ph.pFlags &&& 2 ≠ 0) ∧
    ((segmentFlags ph &&& ~~~vmmPhysMask ||| vmmPresent) &&& vmmNx ≠ 0#64 ↔ ph.pFlags &&& 1 = 0) := by
  unfold segmentFlags
  by_cases write : ph.pFlags &&& 2 ≠ 0 <;> by_cases fixed : ph.pFlags &&& 1 = 0
  · rw [if_pos write, if_pos fixed]
    exact ⟨iff_of_true (by decide) write, iff_of_true (by decide) fixed⟩
  · rw [if_pos write, if_neg fixed]
    exact ⟨iff_of_true (by decide) write, iff_of_false (by decide) fixed⟩
  · rw [if_neg write, if_pos fixed]
    exact ⟨iff_of_false (by decide) write, iff_of_true (by decide) fixed⟩
  · rw [if_neg write, if_neg fixed]
    exact ⟨iff_of_false (by decide) write, iff_of_false (by decide) fixed⟩

/-- The address ranges of two segments have no address in common. -/
def Apart (ph ph' : Elf64Phdr) : Prop :=
  ph.pVaddr.toNat + ph.pMemsz.toNat ≤ ph'.pVaddr.toNat ∨
    ph'.pVaddr.toNat + ph'.pMemsz.toNat ≤ ph.pVaddr.toNat

instance (ph ph' : Elf64Phdr) : Decidable (Apart ph ph') := inferInstanceAs (Decidable (_ ∨ _))

/-- A later segment touches no page on which this one has a file byte other than zero. -/
def Spared (file : List Byte) (ph later : Elf64Phdr) : Prop :=
  ∀ i, i < ph.pFilesz.toNat → Touches later (ph.pVaddr.toNat + i) →
    file.getD (ph.pOffset.toNat + i) 0#8 = 0#8

/-- What a program expects in the memory of a segment. -/
def expectedByte (file : List Byte) (ph : Elf64Phdr) (i : Nat) : Byte :=
  if i < ph.pFilesz.toNat then file.getD (ph.pOffset.toNat + i) 0#8 else 0#8

theorem segmentByte_own (file : List Byte) (ph : Elf64Phdr) (i : Nat) :
    segmentByte file ph (ph.pVaddr.toNat + i) = expectedByte file ph i := by
  rw [segmentByte, expectedByte, Nat.add_sub_cancel_left]
  by_cases inside : i < ph.pFilesz.toNat
  · rw [if_pos (by omega), if_pos inside]
  · rw [if_neg (by omega), if_neg inside]

theorem segmentByte_apart {ph' : Elf64Phdr} (ok : segmentOk file ph' = true) (apart : Apart ph ph')
    {i : Nat} (lt : i < ph.pMemsz.toNat) : segmentByte file ph' (ph.pVaddr.toNat + i) = 0#8 := by
  have shorter := (segmentOk_inside ok).1
  rw [segmentByte, if_neg]
  rcases apart with before | after <;> omega

/-- With a segment in the list, its page belongs to a later segment that touches it, or else
to the segment itself. -/
theorem owner_split {phs before rest : List Elf64Phdr} (split : loads phs = before ++ ph :: rest)
    {a : Nat} (touches : Touches ph a) :
    (∃ later ∈ rest, Touches later a ∧ owner phs a = some later) ∨
      (∀ later ∈ rest, ¬ Touches later a) ∧ owner phs a = some ph := by
  rw [owner, split, List.reverse_append, List.reverse_cons, List.append_assoc, List.find?_append]
  cases found : rest.reverse.find? fun ph => Touches ph a with
  | some later =>
    refine .inl ⟨later, List.mem_reverse.mp (List.mem_of_find?_eq_some found), ?_, rfl⟩
    simpa using List.find?_some found
  | none =>
    refine .inr ⟨fun later member touched => ?_, ?_⟩
    · exact List.find?_eq_none.mp found later (List.mem_reverse.mpr member) (by simpa using touched)
    · rw [Option.none_or, List.singleton_append, List.find?_cons_of_pos (by simpa using touches)]

theorem pairwise_split {α : Type} {R : α → α → Prop} {xs : List α} :
    xs.Pairwise R ↔ ∀ before x rest, xs = before ++ x :: rest → ∀ y ∈ rest, R x y := by
  constructor
  · rintro pairs before x rest rfl
    exact (List.pairwise_cons.mp (List.pairwise_append.mp pairs).2.1).1
  · intro all
    induction xs with
    | nil => exact .nil
    | cons x rest ih =>
      refine .cons (all [] x rest rfl) (ih fun before y rest' split => ?_)
      exact all (x :: before) y rest' (by rw [split]; rfl)

/-- Reading the memory of the segments, against the order in which they were mapped. -/
theorem faithful_iff {phs : List Elf64Phdr} (ok : ∀ ph ∈ loads phs, segmentOk file ph = true)
    (apart : (loads phs).Pairwise Apart) :
    (∀ ph ∈ loads phs, ∀ i, i < ph.pMemsz.toNat →
      (owner phs (ph.pVaddr.toNat + i)).map (segmentByte file · (ph.pVaddr.toNat + i)) =
        some (expectedByte file ph i)) ↔ (loads phs).Pairwise (Spared file) := by
  have own : ∀ {ph : Elf64Phdr} {i : Nat}, i < ph.pMemsz.toNat →
      Touches ph (ph.pVaddr.toNat + i) := by
    intro ph i lt
    constructor <;> omega
  rw [pairwise_split] at apart ⊢
  constructor
  · intro reads before ph rest split later member i lt touches
    have here : ph ∈ loads phs := by simp [split]
    have inside : i < ph.pMemsz.toNat := lt_of_lt_of_le lt (segmentOk_inside (ok ph here)).1
    have read := reads ph here i inside
    rcases owner_split split (own inside) with ⟨last, member', _, found⟩ | ⟨none_, _⟩
    · have okLast := ok last (by simp [split, member'])
      rw [found, Option.map_some, segmentByte_apart okLast (apart _ _ _ split _ member') inside,
        expectedByte, if_pos lt] at read
      exact (Option.some.inj read).symm
    · exact absurd touches (none_ later member)
  · intro spared ph here i lt
    obtain ⟨before, rest, split⟩ := List.append_of_mem here
    rcases owner_split split (own lt) with ⟨last, member, touches, found⟩ | ⟨_, found⟩
    · have okLast := ok last (by simp [split, member])
      rw [found, Option.map_some, segmentByte_apart okLast (apart _ _ _ split _ member) lt,
        expectedByte]
      split
      · rename_i inFile
        rw [spared _ _ _ split _ member i inFile touches]
      · rfl
    · rw [found, Option.map_some, segmentByte_own]

/-- **What a loaded program finds.** For an image whose segments lie at or above 1 GiB and have
no address in common, loaded into a new address space: the memory of every segment reads as
the file says exactly if no segment has a file byte other than zero on a page that a later
segment touches. A page that one segment touches has that segment's permissions, and the base
of the break is a page boundary at or above the end of every segment. -/
theorem elf_load_faithful {K : KernelTables} {roots : List Nat} {c : Nat} {s s₁ s₂ : MemState}
    {r : Nat} {file : List Byte} {entry base : Word} (h : Sound K roots c s)
    (made : vmmCreateAddressSpace s = .ok (some r) s₁)
    (loaded : elfLoadUserImage r file s₁ = .ok (some (entry, base)) s₂)
    (high : ∀ ph ∈ loads (phdrs file), 2 ^ 30 ≤ ph.pVaddr.toNat)
    (apart : (loads (phdrs file)).Pairwise Apart) :
    ((∀ ph ∈ loads (phdrs file), ∀ i, i < ph.pMemsz.toNat →
        userLoad s₂.mem r (ph.pVaddr + BitVec.ofNat 64 i) = some (expectedByte file ph i)) ↔
      (loads (phdrs file)).Pairwise (Spared file)) ∧
    (∀ v ph, v < userSpaceTop → ph ∈ loads (phdrs file) → Touches ph v.toNat →
      (∀ ph' ∈ loads (phdrs file), Touches ph' v.toNat → ph' = ph) →
      (vmmGetFlags s₂.mem r v &&& vmmWrite ≠ 0#64 ↔ ph.pFlags &&& 2 ≠ 0) ∧
      (vmmGetFlags s₂.mem r v &&& vmmNx ≠ 0#64 ↔ ph.pFlags &&& 1 = 0)) ∧
    base.toNat % 4096 = 0 ∧
    ∀ ph ∈ loads (phdrs file), ph.pVaddr.toNat + ph.pMemsz.toNat ≤ base.toNat := by
  obtain ⟨rfl, g, sys⟩ := h
  obtain ⟨g₁, created⟩ := wp_ok (vmmCreateAddressSpace_spec sys.vm sys.current.1
    (fun _ => sys.current.2)) made
  have live : (spaceLayout K.pdptHh).Live g₁ (.user r) := (created.live _).mpr (.inr rfl)
  have empty : ∀ q, g₁.leaf (.user r, q) = 0#64 := by
    intro q
    rw [created.leaf]
    exact (sys.vm.unused_root created.unused.1 created.unused.2).2 q
  obtain ⟨_, g₂, filling, _, outcome⟩ :=
    wp_ok (elfLoadUserImage_filling live (.start created.vm empty) high) loaded
  obtain ⟨rfl, checked, aligned⟩ := outcome entry base rfl
  have ok := fun ph member => (checked ph member).1
  -- addresses of the segments are addresses of user pages
  have userPage : ∀ {v : Word} {ph}, v < userSpaceTop → ph ∈ loads (phdrs file) →
      Touches ph v.toNat → UserPage v := by
    intro v ph below member touches
    refine userPage_of_range ?_ below
    have := high ph member
    have := touches.1
    omega
  refine ⟨?_, ?_, aligned, fun ph member => (checked ph member).2⟩
  · rw [← faithful_iff ok apart]
    refine forall_congr' fun ph => forall_congr' fun member => forall_congr' fun i =>
      forall_congr' fun lt => ?_
    have inUser := (segmentOk_inside (ok ph member)).2
    have value : (ph.pVaddr + BitVec.ofNat 64 i).toNat = ph.pVaddr.toNat + i := by
      rw [BitVec.toNat_add, BitVec.toNat_ofNat]
      omega
    have below : ph.pVaddr + BitVec.ofNat 64 i < userSpaceTop := by
      rw [lt_userSpaceTop, value]
      omega
    have touches : Touches ph (ph.pVaddr + BitVec.ofNat 64 i).toNat := by
      rw [value]
      constructor <;> omega
    rw [filling.load live (userPage below member touches), lastAt_segments ok below, value,
      Option.map_map]
    have whole : (alignDown (ph.pVaddr + BitVec.ofNat 64 i) pageSize).toNat +
        (ph.pVaddr.toNat + i) % 4096 = ph.pVaddr.toNat + i := by
      rw [alignDown_page_toNat, value]
      omega
    simp only [Function.comp_def, place, whole]
  · intro v ph below member touches only
    obtain ⟨before, rest, split⟩ := List.append_of_mem member
    have owned : owner (phdrs file) v.toNat = some ph := by
      rcases owner_split split touches with ⟨later, here, touched, found⟩ | ⟨_, found⟩
      · rw [found, only later (by simp [split, here]) touched]
      · exact found
    have last := lastAt_segments ok below
    rw [owned, Option.map_some] at last
    rw [filling.flags live (userPage below member touches) last]
    exact segmentFlags_bits ph

theorem smallMachine_sound : Sound smallTables [] smallMachine.cr3 smallMachine :=
  ⟨rfl, _, smallMachine_booted.system (smallMachine_booted.heapBase_le (by decide))⟩

/-- The loader, and a byte the program would read. -/
def loadProbe (pml4 : Nat) (file : List Byte) (v : Word) :
    MmM (Option (Word × Word) × Option Byte) := do
  let result ← elfLoadUserImage pml4 file
  let s ← get
  pure (result, userLoad s.mem pml4 v)

/-- The program of one page reads as its file says. -/
theorem elf_load_faithful_small :
    vmmCreateAddressSpace smallMachine = .ok (some 8) smallFirst ∧
    ∃ entry base s₂, elfLoadUserImage 8 smallProgram smallFirst = .ok (some (entry, base)) s₂ ∧
      ∀ ph ∈ loads (phdrs smallProgram), ∀ i, i < ph.pMemsz.toNat →
        userLoad s₂.mem 8 (ph.pVaddr + BitVec.ofNat 64 i) = some (expectedByte smallProgram ph i) := by
  have probe : resultValue (elfLoadUserImage 8 smallProgram smallFirst) =
      some (some (0x40200000#64, 0x40201000#64)) := by decide +kernel
  have one : loads (phdrs smallProgram) =
      [⟨1, 5, 0#64, 0x40200000#64, 0#64, 4096#64, 4096#64⟩] := by decide +kernel
  have high : ∀ ph ∈ loads (phdrs smallProgram), 2 ^ 30 ≤ ph.pVaddr.toNat := by
    rw [one]
    decide
  refine ⟨smallMachine_create, _, _, _, result_eq probe, ?_⟩
  refine (elf_load_faithful smallMachine_sound smallMachine_create (result_eq probe) high ?_).1.mpr ?_
  · rw [one]
    exact List.pairwise_singleton _ _
  · rw [one]
    exact List.pairwise_singleton _ _

def phdrBytes (flags offset vaddr filesz memsz : Nat) : List Byte :=
  littleEndian 4 1 ++ littleEndian 4 flags ++ littleEndian 8 offset ++ littleEndian 8 vaddr ++
    littleEndian 8 0 ++ littleEndian 8 filesz ++ littleEndian 8 memsz ++ littleEndian 8 4096

/-- A program of two segments, code at 0x40200000 and data at 0x40200800. -/
def sharedProgram : List Byte :=
  smallProgram.take 56 ++ littleEndian 2 2 ++ littleEndian 6 0 ++
    phdrBytes 5 0 0x40200000 1 1 ++ phdrBytes 6 0 0x40200800 0 1

/-- The page of the data takes the place of the page with the code. -/
theorem elf_load_faithful_shared :
    Sound smallTables [] smallMachine.cr3 smallMachine ∧
    vmmCreateAddressSpace smallMachine = .ok (some 8) smallFirst ∧
    (∀ ph ∈ loads (phdrs sharedProgram), 2 ^ 30 ≤ ph.pVaddr.toNat) ∧
    (loads (phdrs sharedProgram)).Pairwise Apart ∧
    ∃ entry base s₂, elfLoadUserImage 8 sharedProgram smallFirst = .ok (some (entry, base)) s₂ ∧
      ∃ ph ∈ loads (phdrs sharedProgram), ∃ i, i < ph.pMemsz.toNat ∧
        userLoad s₂.mem 8 (ph.pVaddr + BitVec.ofNat 64 i) ≠
          some (expectedByte sharedProgram ph i) := by
  have probe : resultValue (loadProbe 8 sharedProgram 0x40200000#64 smallFirst) =
      some (some (0x40200000#64, 0x40201000#64), some 0#8) := by decide +kernel
  have two : loads (phdrs sharedProgram) = [⟨1, 5, 0#64, 0x40200000#64, 1#64, 1#64, 4096#64⟩,
      ⟨1, 6, 0#64, 0x40200800#64, 0#64, 1#64, 4096#64⟩] := by decide +kernel
  obtain ⟨result, s₂, loaded, probe⟩ := resultValue_bind probe
  obtain ⟨_, _, got, probe⟩ := resultValue_bind probe
  cases got
  obtain ⟨rfl, read⟩ := Prod.mk.inj (Option.some.inj probe)
  rw [two]
  refine ⟨smallMachine_sound, smallMachine_create, by decide, by decide, _, _, s₂, loaded, _,
    List.mem_cons_self .., 0, by decide, ?_⟩
  rw [show (0x40200000#64 : Word) + BitVec.ofNat 64 0 = 0x40200000#64 from by decide, read]
  decide +kernel

end LithiumKernel.Proc
