import LithiumKernel.Lib.Radix
import LithiumKernel.Mm.KernelMap

/-!
# Page tables as a map

`vmm_get_physical` and `vmm_get_flags` both read the entry at which a lookup in the four-level
table ends. Here nothing is assumed of the table beyond its shape: every table is reached by one
path, there are no 1 GiB pages, and a frame the pool can hand out is no table.
`vmm_map_page` then hangs in empty tables, marks entries on its way, and writes one leaf;
`vmm_unmap_page` clears one.
-/
namespace LithiumKernel.Mm

open LithiumKernel.Lib LithiumKernel.Lib.Forest LithiumKernel.Lib.Radix

/-- An entry of a PML4, a PDPT or a page directory names a table; a directory may instead hold a
2 MiB page. -/
def pageFormat : Format Word where
  next n e := if e &&& vmmPresent ≠ 0#64 ∧ n < 3 ∧ (n = 2 → e &&& vmmHuge = 0#64) then
    some (frameOf e) else none
  live e := e &&& vmmPresent ≠ 0#64
  live_of_next := by
    intro n e t next
    by_cases present : e &&& vmmPresent = 0#64
    · rw [if_neg fun h => h.1 present] at next
      cases next
    · exact present

abbrev pageTable (mem : PhysMem) (root : Nat) (p : List Idx) : Option Nat :=
  tableAt pageFormat mem root p

/-- A well-formed table. -/
structure PageTree (s : MemState) (root : Nat) : Prop where
  one : OnePath pageFormat s.mem root
  small : ∀ {i t}, pageTable s.mem root [i] = some t → ∀ j, s.mem t j &&& vmmPresent ≠ 0#64 →
    s.mem t j &&& vmmHuge = 0#64
  fresh : ∀ {p t}, pageTable s.mem root p = some t → t < s.pmm.totalFrames →
    s.pmm.frameIsFree t = false
  total : s.pmm.totalFrames ≤ pmmMaxFrames

theorem pageFormat_next {n : Nat} {e : Word} (present : e &&& vmmPresent ≠ 0#64) (level : n < 3)
    (table : n = 2 → e &&& vmmHuge = 0#64) : pageFormat.next n e = some (frameOf e) :=
  if_pos ⟨present, level, table⟩

theorem pageFormat_full (e : Word) {n : Nat} (level : n = 3) : pageFormat.next n e = none :=
  if_neg fun h => absurd h.2.1 (by omega)

theorem pageFormat_huge {e : Word} (huge : e &&& vmmHuge ≠ 0#64) : pageFormat.next 2 e = none :=
  if_neg fun h => huge (h.2.2 rfl)

/-! ## The two lookups -/

/-- The physical address that an entry gives at its level. -/
def entryPhys (v : Word) : Nat × Word → Word
  | (n, e) => if n = 2 then (e &&& 0x000FFFFFFFE00000#64) ||| (v &&& 0x1FFFFF#64)
    else (e &&& vmmPhysMask) ||| (v &&& 0xFFF#64)

variable {s s' s'' : MemState} {root t : Nat} {p : List Idx} {i : Idx} {v : Word}

/-- Both lookups are functions of the entry found. -/
theorem PageTree.reads (tree : PageTree s root) (v : Word) :
    vmmGetPhysical s.mem root v = (lookup pageFormat s.mem root (pagePath v)).map (entryPhys v) ∧
    vmmGetFlags s.mem root v =
      ((lookup pageFormat s.mem root (pagePath v)).map fun x => x.2 &&& ~~~vmmPhysMask).getD 0#64 := by
  have at_root : pageTable s.mem root [] = some root := rfl
  have under₄ : [pml4Idx v] <:+ pagePath v := ⟨[ptIdx v, pdIdx v, pdptIdx v], rfl⟩
  have under₃ : [pdptIdx v, pml4Idx v] <:+ pagePath v := ⟨[ptIdx v, pdIdx v], rfl⟩
  have under₂ : [pdIdx v, pdptIdx v, pml4Idx v] <:+ pagePath v := ⟨[ptIdx v], rfl⟩
  unfold vmmGetPhysical vmmGetFlags
  by_cases present₄ : s.mem root (pml4Idx v) &&& vmmPresent = 0#64
  · rw [if_pos present₄, if_pos present₄, lookup_vacant at_root (not_not_intro present₄) under₄]
    exact ⟨rfl, rfl⟩
  have at_pdpt := (tableAt_cons (i := pml4Idx v) at_root).trans
    (pageFormat_next present₄ (Nat.zero_lt_succ _) nofun)
  rw [if_neg present₄, if_neg present₄]
  dsimp only
  generalize frameOf (s.mem root (pml4Idx v)) = pdpt at at_pdpt ⊢
  by_cases present₃ : s.mem pdpt (pdptIdx v) &&& vmmPresent = 0#64
  · rw [if_pos present₃, if_pos present₃, lookup_vacant at_pdpt (not_not_intro present₃) under₃]
    exact ⟨rfl, rfl⟩
  have table₃ := not_not_intro (tree.small at_pdpt _ present₃)
  have at_pd := (tableAt_cons (i := pdptIdx v) at_pdpt).trans
    (pageFormat_next present₃ (by simp) nofun)
  rw [if_neg present₃, if_neg present₃, if_neg table₃, if_neg table₃]
  generalize frameOf (s.mem pdpt (pdptIdx v)) = pd at at_pd ⊢
  by_cases present₂ : s.mem pd (pdIdx v) &&& vmmPresent = 0#64
  · rw [if_pos present₂, if_pos present₂, lookup_vacant at_pd (not_not_intro present₂) under₂]
    exact ⟨rfl, rfl⟩
  rw [if_neg present₂, if_neg present₂]
  by_cases huge : s.mem pd (pdIdx v) &&& vmmHuge ≠ 0#64
  · have ends := (tableAt_cons (i := pdIdx v) at_pd).trans (pageFormat_huge huge)
    rw [if_pos huge, if_pos huge, pagePath, lookup_skip ends, lookup_cons at_pd,
      if_pos (show pageFormat.live _ from present₂)]
    exact ⟨rfl, rfl⟩
  have at_pt := (tableAt_cons (i := pdIdx v) at_pd).trans
    (pageFormat_next present₂ (by simp) fun _ => not_not.mp huge)
  rw [if_neg huge, if_neg huge, pagePath, lookup_cons at_pt]
  generalize frameOf (s.mem pd (pdIdx v)) = pt
  by_cases present₁ : s.mem pt (ptIdx v) &&& vmmPresent = 0#64
  · rw [if_pos present₁, if_pos present₁, 
      if_neg (show ¬ pageFormat.live _ from not_not_intro present₁)]
    exact ⟨rfl, rfl⟩
  · rw [if_neg present₁, if_neg present₁, if_pos (show pageFormat.live _ from present₁)]
    exact ⟨rfl, rfl⟩

/-! ## Steps that no lookup notices -/

/-- The table is still well formed, and lookups of pages and tables find what they found. -/
structure Unnoticed (root : Nat) (s s' : MemState) : Prop where
  tree : PageTree s' root
  pages : ∀ q : List Idx, q.length = 4 →
    lookup pageFormat s'.mem root q = lookup pageFormat s.mem root q
  tables : ∀ {q t}, pageTable s.mem root q = some t → pageTable s'.mem root q = some t

theorem Unnoticed.refl (tree : PageTree s root) : Unnoticed root s s :=
  ⟨tree, fun _ _ => rfl, id⟩

theorem Unnoticed.trans (first : Unnoticed root s s') (second : Unnoticed root s' s'') :
    Unnoticed root s s'' where
  tree := second.tree
  pages q length := (second.pages q length).trans (first.pages q length)
  tables at_q := second.tables (first.tables at_q)

theorem sameBut_store (mem : PhysMem) (root t : Nat) (i : Idx) (e : Word) :
    SameBut pageFormat mem (store mem t i e) root t i :=
  fun _ _ _ _ off => store_of_ne mem e off

variable {halt : Kassert → MemState → Prop}

/-- An empty frame taken from the pool and hung in changes no lookup. -/
theorem Unnoticed.graft {f : Nat} (tree : PageTree s root) (at_p : pageTable s.mem root p = some t)
    (level : p.length < 3) (vacant : s.mem t i &&& vmmPresent = 0#64)
    (lt : f < s.pmm.totalFrames) (free : s.pmm.frameIsFree f = true) :
    let s' := { s with
      pmm := s.pmm.takeFrame f
      mem := store (Function.update s.mem f fun _ => 0#64) t i (tableEntry (frameAddr f)) }
    Unnoticed root s s' ∧ pageTable s'.mem root (i :: p) = some f ∧
      ∀ {q t'}, pageTable s'.mem root q = some t' →
        q = i :: p ∧ t' = f ∨ pageTable s.mem root q = some t' := by
  intro s'
  have frame_small : f < 2 ^ 40 := lt_of_lt_of_le lt (tree.total.trans (by decide))
  have new : ∀ q, pageTable s.mem root q ≠ some f := by
    intro q at_q
    rw [tree.fresh at_q lt] at free
    cases free
  have other : t ≠ f := fun same => new p (same ▸ at_p)
  have same : SameBut pageFormat s.mem s'.mem root t i := by
    intro q t' j at_q off
    have elsewhere : t' ≠ f := fun eq => new q (eq ▸ at_q)
    change store _ t i _ t' j = _
    rw [store_of_ne _ _ off, Function.update_of_ne elsewhere]
  have entry : s'.mem t i = tableEntry (frameAddr f) := store_same ..
  have blank : ∀ j, s'.mem f j = 0#64 := by
    intro j
    change store _ t i _ f j = _
    rw [store_frame _ i _ other.symm, Function.update_self]
  have dead : ∀ j, ¬ pageFormat.live (s'.mem f j) := by
    intro j live
    rw [blank] at live
    exact live (by decide)
  have plain : tableEntry (frameAddr f) &&& vmmHuge = 0#64 := by
    rw [and_huge, tableEntry_low f (by decide)]
    decide
  have link : pageFormat.next p.length (s'.mem t i) = some f := by
    rw [entry, pageFormat_next ?_ level fun _ => plain, tableEntry_frame frame_small]
    rw [ne_eq, and_present, tableEntry_low f (by decide)]
    decide
  have kept := fun {q t'} => @tableAt_graft_cases _ _ _ _ _ _ _ _ _ q _ same tree.one at_p link
    dead t'
  have grafted := tableAt_graft same tree.one at_p link
  refine ⟨⟨⟨OnePath.graft same tree.one at_p new link dead, ?_, ?_, tree.total⟩, ?_, ?_⟩, grafted,
    fun at_q => (kept at_q).imp_right And.right⟩
  · intro i' t' at_pdpt j present
    rcases kept at_pdpt with ⟨_, rfl⟩ | ⟨_, old⟩
    · exact absurd present (dead j)
    · by_cases here : t' = t ∧ j = i
      · obtain ⟨rfl, rfl⟩ := here
        rw [entry, plain]
      · rw [same old here] at present ⊢
        exact tree.small old j present
  · intro q t' at_q bound
    rcases kept at_q with ⟨_, rfl⟩ | ⟨_, old⟩
    · exact Bool.eq_false_iff.mpr fun still => ((Pmm.frameIsFree_setUsed ..).mp still).2 rfl
    · refine Bool.eq_false_iff.mpr fun still => ?_
      have was := ((Pmm.frameIsFree_setUsed ..).mp still).1
      rw [tree.fresh old bound] at was
      cases was
  · intro q length
    refine lookup_graft same tree.one at_p (not_not_intro vacant) link dead ?_
    rintro rfl
    rw [List.length_cons] at length
    omega
  · intro q t' at_q
    refine (same.tableAt_eq tree.one at_p fun through => ?_).trans at_q
    have ends : pageTable s.mem root (i :: p) = none :=
      (tableAt_cons at_p).trans (if_neg fun h => h.1 vacant)
    exact Option.some_ne_none _ (at_q.symm.trans (tableAt_below ends through))

theorem ptWalkOrAlloc_unnoticed (tree : PageTree s root) (at_p : pageTable s.mem root p = some t)
    (level : p.length < 3) (plain : p.length = 2 → s.mem t i &&& vmmHuge = 0#64) :
    wp (ptWalkOrAlloc t i) (fun result s' => Unnoticed root s s' ∧
      ∀ t', result = some t' → pageTable s'.mem root (i :: p) = some t') halt s := by
  unfold ptWalkOrAlloc
  rw [wp_bind, wp_readEntry]
  apply wp_ite
  · intro present
    refine ⟨.refl tree, ?_⟩
    rintro _ ⟨⟩
    exact (tableAt_cons at_p).trans (pageFormat_next present level plain)
  intro vacant
  rw [wp_bind, wp_allocFrame]
  rcases pmmAllocFrame_cases s.pmm with ⟨f, run, lt, free⟩ | run
  · rw [run]
    have small : f < 2 ^ 40 := lt_of_lt_of_le lt (tree.total.trans (by decide))
    simp only [wp_bind, wp_zeroFrame, wp_writeEntry, wp_pure, frameOf_frameAddr small]
    obtain ⟨kept, grafted, _⟩ := Unnoticed.graft tree at_p level (not_not.mp vacant) lt free
    refine ⟨kept, ?_⟩
    rintro _ ⟨⟩
    exact grafted
  · rw [run]
    refine ⟨.refl tree, ?_⟩
    rintro _ ⟨⟩

theorem or_user_low (e : Word) {k : Nat} (low : k < 12) (other : k ≠ 2) :
    (e ||| vmmUser).getLsbD k = e.getLsbD k := by
  rw [vmmUser, getLsbD_or_bit _ _ (by omega), decide_eq_false other, Bool.or_false]

theorem next_or_user (n : Nat) (e : Word) :
    pageFormat.next n (e ||| vmmUser) = pageFormat.next n e := by
  simp only [pageFormat, ne_eq, and_present, and_huge, or_user_low e (show 0 < 12 by decide)
    (by decide), or_user_low e (show 7 < 12 by decide) (by decide),
    frameOf_or_flags e (show vmmUser &&& vmmPhysMask = 0#64 by decide)]

theorem markUser_unnoticed (flags : Word) (tree : PageTree s root)
    (at_p : pageTable s.mem root p = some t) (level : p.length < 3) {t' : Nat}
    (link : pageTable s.mem root (i :: p) = some t') :
    wp (markUser flags t i) (fun _ s' => Unnoticed root s s') halt s := by
  unfold markUser
  apply wp_ite
  · intro _
    rw [wp_bind, wp_readEntry, wp_writeEntry]
    have same := sameBut_store s.mem root t i (s.mem t i ||| vmmUser)
    have still : pageFormat.next p.length (store s.mem t i (s.mem t i ||| vmmUser) t i) =
        some t' := by
      rw [store_same, next_or_user, ← link, ← tableAt_cons at_p]
    have tables := tableAt_relabel same tree.one at_p link still
    refine ⟨⟨OnePath.relabel same tree.one at_p link still, ?_, ?_, tree.total⟩, ?_, ?_⟩
    · intro i' f at_pdpt j present
      replace at_pdpt := (tables _).symm.trans at_pdpt
      change store _ _ _ _ f j &&& vmmPresent ≠ 0#64 at present
      change store _ _ _ _ f j &&& vmmHuge = 0#64
      by_cases here : f = t ∧ j = i
      · obtain ⟨rfl, rfl⟩ := here
        rw [store_same, ne_eq, and_present, or_user_low _ (by decide) (by decide),
          ← and_present] at present
        rw [store_same, and_huge, or_user_low _ (by decide) (by decide), ← and_huge]
        exact tree.small at_pdpt j present
      · rw [store_of_ne _ _ here] at present ⊢
        exact tree.small at_pdpt j present
    · intro q f at_q
      exact tree.fresh ((tables q).symm.trans at_q)
    · intro q length
      refine lookup_relabel same tree.one at_p link still ?_
      rintro rfl
      rw [List.length_cons] at length
      omega
    · intro q f at_q
      exact (tables q).trans at_q
  · intro _
    exact .refl tree

/-! ## The leaf -/

/-- The entry of one page was written, and no other lookup notices. -/
structure LeafWritten (root : Nat) (v e : Word) (s s' : MemState) : Prop where
  tree : PageTree s' root
  here : lookup pageFormat s'.mem root (pagePath v) =
    if e &&& vmmPresent ≠ 0#64 then some (3, e) else none
  others : ∀ q : List Idx, q.length = 4 → q ≠ pagePath v →
    lookup pageFormat s'.mem root q = lookup pageFormat s.mem root q

theorem LeafWritten.of_store (tree : PageTree s root)
    (at_pt : pageTable s.mem root [pdIdx v, pdptIdx v, pml4Idx v] = some t) (e : Word) :
    LeafWritten root v e s { s with mem := store s.mem t (ptIdx v) e } := by
  have same := sameBut_store s.mem root t (ptIdx v) e
  have full : ∀ w, pageFormat.next [pdIdx v, pdptIdx v, pml4Idx v].length w = none :=
    fun w => pageFormat_full w rfl
  have tables := tableAt_leaf same tree.one at_pt full
  refine ⟨⟨OnePath.leaf same tree.one at_pt full, ?_, ?_, tree.total⟩, ?_, ?_⟩
  · intro i f at_pdpt j
    replace at_pdpt := (tables _).symm.trans at_pdpt
    have other : f ≠ t := by
      rintro rfl
      cases tree.one at_pdpt at_pt
    change store _ _ _ _ f j &&& vmmPresent ≠ 0#64 → store _ _ _ _ f j &&& vmmHuge = 0#64
    rw [store_frame _ _ _ other]
    exact tree.small at_pdpt j
  · intro q f at_q
    exact tree.fresh ((tables q).symm.trans at_q)
  · have at_pt' := (tables _).trans at_pt
    change lookup pageFormat (store s.mem t (ptIdx v) e) root _ = _
    rw [pagePath, lookup_cons at_pt', store_same]
    rfl
  · intro q length other
    refine same.lookup_eq tree.one at_pt fun through => other ?_
    exact (through.eq_of_length (by rw [length]; rfl)).symm

theorem LeafWritten.after {e : Word} (kept : Unnoticed root s s')
    (written : LeafWritten root v e s' s'') : LeafWritten root v e s s'' where
  tree := written.tree
  here := written.here
  others q length other := (written.others q length other).trans (kept.pages q length)

theorem leafEntry_present (phys flags : Word) : leafEntry phys flags &&& vmmPresent ≠ 0#64 := by
  rw [ne_eq, and_present, leafEntry, vmmPresent, getLsbD_or_bit _ _ (by decide)]
  simp

theorem vmmMapPage_lookup (tree : PageTree s root) (v phys flags : Word) :
    wp (vmmMapPage root v phys flags) (fun done s' =>
      if done then LeafWritten root v (leafEntry phys flags) s s' else Unnoticed root s s')
      halt s := by
  have at_root : pageTable s.mem root [] = some root := rfl
  unfold vmmMapPage
  refine wp_seq (ptWalkOrAlloc_unnoticed tree at_root (by decide) nofun) ?_
  rintro (_ | pdpt) s₁ ⟨kept₁, at_pdpt⟩
  · exact kept₁
  refine wp_seq (markUser_unnoticed flags kept₁.tree (kept₁.tables at_root) (by decide)
    (at_pdpt pdpt rfl)) ?_
  intro _ s₂ marked₁
  have kept₂ := kept₁.trans marked₁
  replace at_pdpt := marked₁.tables (at_pdpt pdpt rfl)
  unfold mapBelowPdpt
  refine wp_seq (ptWalkOrAlloc_unnoticed kept₂.tree at_pdpt (by simp) (by simp)) ?_
  rintro (_ | pd) s₃ ⟨grown₃, at_pd⟩
  · exact kept₂.trans grown₃
  refine wp_seq (markUser_unnoticed flags grown₃.tree (grown₃.tables at_pdpt) (by simp)
    (at_pd pd rfl)) ?_
  intro _ s₄ marked₃
  have kept₄ := (kept₂.trans grown₃).trans marked₃
  replace at_pd := marked₃.tables (at_pd pd rfl)
  rw [wp_bind, wp_readEntry]
  apply wp_ite
  · intro _
    exact kept₄
  intro plain
  refine wp_seq (ptWalkOrAlloc_unnoticed kept₄.tree at_pd (by simp) fun _ => not_not.mp plain) ?_
  rintro (_ | pt) s₅ ⟨grown₅, at_pt⟩
  · exact kept₄.trans grown₅
  refine wp_seq (markUser_unnoticed flags grown₅.tree (grown₅.tables at_pd) (by simp)
    (at_pt pt rfl)) ?_
  intro _ s₆ marked₅
  have kept₆ := (kept₄.trans grown₅).trans marked₅
  exact (LeafWritten.of_store kept₆.tree (marked₅.tables (at_pt pt rfl)) _).after kept₆

/-- A 2 MiB page covers the address. -/
def CoveredByHuge (mem : PhysMem) (root : Nat) (v : Word) : Prop :=
  ∃ pd, pageTable mem root [pdptIdx v, pml4Idx v] = some pd ∧
    mem pd (pdIdx v) &&& vmmPresent ≠ 0#64 ∧ mem pd (pdIdx v) &&& vmmHuge ≠ 0#64

theorem vmmUnmapPage_lookup (tree : PageTree s root) (small : ¬ CoveredByHuge s.mem root v) :
    wp (vmmUnmapPage root v) (fun _ s' => LeafWritten root v 0#64 s s') halt s := by
  have at_root : pageTable s.mem root [] = some root := rfl
  have under₄ : [pml4Idx v] <:+ pagePath v := ⟨[ptIdx v, pdIdx v, pdptIdx v], rfl⟩
  have under₃ : [pdptIdx v, pml4Idx v] <:+ pagePath v := ⟨[ptIdx v, pdIdx v], rfl⟩
  have under₂ : [pdIdx v, pdptIdx v, pml4Idx v] <:+ pagePath v := ⟨[ptIdx v], rfl⟩
  have unmapped : lookup pageFormat s.mem root (pagePath v) = none →
      LeafWritten root v 0#64 s s := fun empty => ⟨tree, empty, fun _ _ _ => rfl⟩
  unfold vmmUnmapPage
  rw [wp_bind, wp_readEntry]
  apply wp_ite
  · intro vacant
    exact unmapped (lookup_vacant at_root (not_not_intro vacant) under₄)
  intro present₄
  have at_pdpt := (tableAt_cons (i := pml4Idx v) at_root).trans
    (pageFormat_next present₄ (by simp) nofun)
  rw [wp_bind, wp_readEntry]
  apply wp_ite
  · intro vacant
    exact unmapped (lookup_vacant at_pdpt (not_not_intro vacant) under₃)
  intro present₃
  have at_pd := (tableAt_cons (i := pdptIdx v) at_pdpt).trans
    (pageFormat_next present₃ (by simp) nofun)
  rw [wp_bind, wp_readEntry]
  apply wp_ite
  · intro stopped
    refine unmapped (lookup_vacant at_pd (fun present₂ => ?_) under₂)
    rcases stopped with vacant | huge
    · exact present₂ vacant
    · exact small ⟨_, at_pd, present₂, huge⟩
  intro walked
  obtain ⟨present₂, plain⟩ := not_or.mp walked
  have at_pt := (tableAt_cons (i := pdIdx v) at_pd).trans
    (pageFormat_next present₂ (by simp) fun _ => not_not.mp plain)
  rw [wp_writeEntry]
  exact .of_store tree at_pt _

/-! ## The map -/

def SamePage (v w : Word) : Prop := v.toNat / 4096 = w.toNat / 4096

/-- Both lookups find at an address what they found. -/
def SameReads (mem mem' : PhysMem) (root : Nat) (w : Word) : Prop :=
  vmmGetPhysical mem' root w = vmmGetPhysical mem root w ∧
    vmmGetFlags mem' root w = vmmGetFlags mem root w

theorem sameReads_of_lookup {w : Word} (tree : PageTree s root) (tree' : PageTree s' root)
    (same : lookup pageFormat s'.mem root (pagePath w) =
      lookup pageFormat s.mem root (pagePath w)) : SameReads s.mem s'.mem root w := by
  rw [SameReads, (tree.reads w).1, (tree.reads w).2, (tree'.reads w).1, (tree'.reads w).2, same]
  exact ⟨rfl, rfl⟩

theorem LeafWritten.sameReads {e w : Word} (tree : PageTree s root)
    (written : LeafWritten root v e s s') (hv : Canonical v) (hw : Canonical w)
    (other : ¬ SamePage v w) : SameReads s.mem s'.mem root w := by
  refine sameReads_of_lookup tree written.tree (written.others _ rfl fun same => other ?_)
  exact (pagePath_canonical hv hw).mp same.symm

theorem LeafWritten.unmapped {w : Word} (written : LeafWritten root v 0#64 s s')
    (same : SamePage v w) :
    vmmGetPhysical s'.mem root w = none ∧ vmmGetFlags s'.mem root w = 0#64 := by
  rw [(written.tree.reads w).1, (written.tree.reads w).2, ← pagePath_congr same, written.here]
  exact ⟨rfl, rfl⟩

/-- The address is that of the frame and the offset of `w` in its page. -/
theorem leafEntry_phys {phys : Word} (inside : phys &&& vmmPhysMask = phys) (flags w : Word) :
    (leafEntry phys flags &&& vmmPhysMask) ||| (w &&& 0xFFF#64) =
      phys + BitVec.ofNat 64 (w.toNat % 4096) := by
  obtain ⟨f, lt, rfl⟩ : ∃ f, f < 2 ^ 40 ∧ frameAddr f = phys :=
    ⟨frameOf phys, frameOf_lt phys, by rw [← and_physMask, inside]⟩
  apply BitVec.eq_of_toNat_eq
  rw [phys_toNat, leafEntry_frame lt, BitVec.toNat_add, frameAddr_toNat lt, BitVec.toNat_ofNat,
    pmmFrameSize]
  omega

theorem LeafWritten.mapped {phys flags w : Word} (inside : phys &&& vmmPhysMask = phys)
    (written : LeafWritten root v (leafEntry phys flags) s s') (same : SamePage v w) :
    vmmGetPhysical s'.mem root w = some (phys + BitVec.ofNat 64 (w.toNat % 4096)) ∧
      vmmGetFlags s'.mem root w = flags &&& ~~~vmmPhysMask ||| vmmPresent := by
  rw [(written.tree.reads w).1, (written.tree.reads w).2, ← pagePath_congr same, written.here,
    if_pos (leafEntry_present phys flags), ← leafEntry_phys inside flags w, ← leafEntry_flags phys]
  exact ⟨rfl, rfl⟩

/-- A 2 MiB page is what a lookup finds in a directory. -/
theorem coveredByHuge_iff : CoveredByHuge s.mem root v ↔
    ∃ e, lookup pageFormat s.mem root (pagePath v) = some (2, e) := by
  constructor
  · rintro ⟨pd, at_pd, present, huge⟩
    have ends := (tableAt_cons (i := pdIdx v) at_pd).trans (pageFormat_huge huge)
    refine ⟨s.mem pd (pdIdx v), ?_⟩
    rw [pagePath, lookup_skip ends, lookup_cons at_pd,
      if_pos (show pageFormat.live _ from present)]
    rfl
  · rintro ⟨e, found⟩
    obtain ⟨j, p, t, below, length, at_p, rfl, live, ends⟩ := lookup_some found
    have under : [pdIdx v, pdptIdx v, pml4Idx v] <:+ pagePath v := ⟨[ptIdx v], rfl⟩
    obtain ⟨rfl, rfl⟩ : j = pdIdx v ∧ p = [pdptIdx v, pml4Idx v] :=
      List.cons.inj ((List.suffix_of_suffix_length_le below under (by simp [length])).eq_of_length
        (by simp [length]))
    refine ⟨t, at_p, live, fun plain => ?_⟩
    rcases ends with same | none_
    · exact absurd (congrArg List.length same) (by simp [pagePath])
    · rw [tableAt_cons at_p, pageFormat_next live (by simp) fun _ => plain] at none_
      cases none_

/-- **Page tables are a map.** In a well-formed table, mapping a page of a canonical address
that no 2 MiB page covers either fails and changes no lookup, or succeeds: then every address of
the page has the physical address asked for and the flags asked for outside the address field,
with the present bit, and no other canonical address is affected. Unmapping after that leaves
exactly the page without a mapping. -/
theorem map_page_updates {s : MemState} {root : Nat} {v phys : Word} (flags : Word)
    (tree : PageTree s root) (hv : Canonical v) (small : ¬ CoveredByHuge s.mem root v)
    (inside : phys &&& vmmPhysMask = phys) :
    ∃ done s' s'', vmmMapPage root v phys flags s = .ok done s' ∧
      vmmUnmapPage root v s' = .ok () s'' ∧
      (done = true →
        (∀ w, Canonical w → SamePage v w →
          vmmGetPhysical s'.mem root w = some (phys + BitVec.ofNat 64 (w.toNat % 4096)) ∧
          vmmGetFlags s'.mem root w = flags &&& ~~~vmmPhysMask ||| vmmPresent) ∧
        ∀ w, Canonical w → ¬ SamePage v w → SameReads s.mem s'.mem root w) ∧
      (done = false → ∀ w, SameReads s.mem s'.mem root w) ∧
      (∀ w, Canonical w → SamePage v w →
        vmmGetPhysical s''.mem root w = none ∧ vmmGetFlags s''.mem root w = 0#64) ∧
      ∀ w, Canonical w → ¬ SamePage v w → SameReads s'.mem s''.mem root w := by
  obtain ⟨done, s', ran, outcome⟩ :=
    exists_run (vmmMapPage_lookup tree v phys flags )
  have tree' : PageTree s' root := by
    cases done with
    | true => exact outcome.tree
    | false => exact outcome.tree
  have small' : ¬ CoveredByHuge s'.mem root v := by
    intro covered
    obtain ⟨e, found⟩ := coveredByHuge_iff.mp covered
    cases done with
    | true =>
      rw [outcome.here, if_pos (leafEntry_present phys flags)] at found
      cases found
    | false =>
      rw [outcome.pages _ rfl] at found
      exact small (coveredByHuge_iff.mpr ⟨e, found⟩)
  obtain ⟨_, s'', cleared, written⟩ :=
    exists_run (vmmUnmapPage_lookup tree' small' )
  refine ⟨done, s', s'', ran, cleared, ?_, ?_, fun w _ => written.unmapped,
    fun w hw => written.sameReads tree' hv hw⟩
  · rintro rfl
    exact ⟨fun w _ => outcome.mapped inside, fun w hw => outcome.sameReads tree hv hw⟩
  · rintro rfl w
    exact sameReads_of_lookup tree outcome.tree (outcome.pages _ rfl)

/-! ## The table of the kernel -/

/-- The tables `vmm_init` makes, by path. -/
def KernelTables.paths (K : KernelTables) : List (List Idx × Nat) :=
  [([], K.pml4), ([0], K.pdptId), ([511], K.pdptHh), ([0, 0], K.pd0), ([510, 511], K.pdHh),
    ([0, 0, 0], K.pt0)]

theorem next_vacant (n : Nat) {t : Nat} : pageFormat.next n 0#64 ≠ some t := by
  intro next
  exact pageFormat.live_of_next next (by decide)

theorem next_tableEntry {n f t : Nat} (small : f < 2 ^ 40)
    (next : pageFormat.next n (tableEntry (frameAddr f)) = some t) : t = f := by
  simp only [pageFormat] at next
  split at next
  · rw [tableEntry_frame small] at next
    exact (Option.some.inj next).symm
  · cases next

theorem next_huge {e : Word} (huge : e &&& vmmHuge ≠ 0#64) {t : Nat} :
    pageFormat.next 2 e ≠ some t := by
  rw [pageFormat_huge huge]
  exact (Option.some_ne_none t).symm

theorem Booted.table_cases {K : KernelTables} {kernelEnd : Word} (boot : Booted K kernelEnd s) :
    ∀ {p : List Idx} {t : Nat}, pageTable s.mem K.pml4 p = some t → (p, t) ∈ K.paths := by
  have named : ∀ {n f t : Nat}, f ∈ K.frames →
      pageFormat.next n (tableEntry (frameAddr f)) = some t → t = f := by
    intro n f t member
    exact next_tableEntry
      (lt_of_lt_of_le (boot.used f member).1 (boot.ok.total_le.trans (by decide)))
  intro p
  induction p with
  | nil =>
    rintro t ⟨⟩
    exact List.mem_cons_self ..
  | cons i q ih =>
    intro t at_p
    obtain ⟨t', at_q, next⟩ := Option.bind_eq_some_iff.mp at_p
    have known := ih at_q
    simp only [KernelTables.paths, List.mem_cons, Prod.mk.injEq, List.not_mem_nil, or_false] at known
    rcases known with ⟨rfl, rfl⟩ | ⟨rfl, rfl⟩ | ⟨rfl, rfl⟩ | ⟨rfl, rfl⟩ | ⟨rfl, rfl⟩ | ⟨rfl, rfl⟩
    · rw [boot.root.pml4] at next
      split at next
      · subst i
        simp [KernelTables.paths, named (by simp [KernelTables.frames]) next]
      · split at next
        · subst i
          simp [KernelTables.paths, named (by simp [KernelTables.frames]) next]
        · exact absurd next (next_vacant _)
    · rw [boot.root.pdptId] at next
      split at next
      · subst i
        simp [KernelTables.paths, named (by simp [KernelTables.frames]) next]
      · exact absurd next (next_vacant _)
    · rw [boot.high.pdptHh] at next
      split at next
      · subst i
        simp [KernelTables.paths, named (by simp [KernelTables.frames]) next]
      · exact absurd next (next_vacant _)
    · rw [boot.window.pd0] at next
      split at next
      · subst i
        simp [KernelTables.paths, named (by simp [KernelTables.frames]) next]
      · exact absurd next (next_huge (identityHuge_huge i))
    · rw [boot.high.pdHh] at next
      split at next
      · exact absurd next (next_huge (by decide))
      · exact absurd next (next_vacant _)
    · exact absurd (next.symm.trans (pageFormat_full _ rfl)) (Option.some_ne_none t)

theorem Booted.pageTree {K : KernelTables} {kernelEnd : Word} (boot : Booted K kernelEnd s) :
    PageTree s K.pml4 := by
  have tables : ∀ {x : List Idx × Nat}, x ∈ K.paths → x.2 ∈ K.frames := by
    intro x member
    simp only [KernelTables.paths, List.mem_cons, List.not_mem_nil, or_false] at member
    rcases member with rfl | rfl | rfl | rfl | rfl | rfl <;> simp [KernelTables.frames]
  have distinct : (K.paths.map Prod.snd).Nodup := by
    have frames := boot.distinct
    simp only [KernelTables.frames, KernelTables.paths, List.map_cons, List.map_nil,
      List.nodup_cons, List.mem_cons, List.not_mem_nil, or_false, not_or, List.nodup_nil,
      not_false_eq_true, and_true] at frames ⊢
    omega
  refine ⟨?_, ?_, ?_, boot.ok.total_le⟩
  · intro p q t at_p at_q
    exact congrArg Prod.fst
      (List.inj_on_of_nodup_map distinct (boot.table_cases at_p) (boot.table_cases at_q) rfl)
  · intro i t at_pdpt j present
    have known := boot.table_cases at_pdpt
    simp only [KernelTables.paths, List.mem_cons, Prod.mk.injEq, List.cons.injEq, reduceCtorEq,
      false_and, and_false, and_true, List.not_mem_nil, or_false, false_or] at known
    rcases known with ⟨_, rfl⟩ | ⟨_, rfl⟩
    · rw [boot.root.pdptId] at present ⊢
      split
      · exact tableEntry_small _
      · rfl
    · rw [boot.high.pdptHh] at present ⊢
      split
      · exact tableEntry_small _
      · rfl
  · intro p t at_p _
    have held := boot.used t (tables (boot.table_cases at_p))
    exact Pmm.used_of_refcount boot.ok held.1 (by omega)

theorem smallMachine_not_huge : ¬ CoveredByHuge smallMachine.mem 1 0x40200000#64 := by
  rintro ⟨pd, at_pd, _⟩
  have none_ : pageTable smallMachine.mem 1 [pdptIdx 0x40200000#64, pml4Idx 0x40200000#64] =
      none := by decide +kernel
  cases none_.symm.trans at_pd

/-- A page of the small machine, mapped in the table of the kernel. -/
theorem map_page_updates_small :
    ¬ CoveredByHuge smallMachine.mem 1 0x40200000#64 ∧
    ∃ done s' s'', vmmMapPage 1 0x40200000#64 0x9000#64 vmmWrite smallMachine = .ok done s' ∧
      vmmUnmapPage 1 0x40200000#64 s' = .ok () s'' ∧
      (done = true → vmmGetPhysical s'.mem 1 0x40200ABC#64 = some 0x9ABC#64) ∧
      vmmGetPhysical s''.mem 1 0x40200ABC#64 = none := by
  have small := smallMachine_not_huge
  obtain ⟨done, s', s'', ran, cleared, mapped, _, unmapped, _⟩ :=
    map_page_updates vmmWrite smallMachine_booted.pageTree (.inl (by decide)) small
      (show 0x9000#64 &&& vmmPhysMask = 0x9000#64 by decide)
  exact ⟨small, done, s', s'', ran, cleared,
    fun success => ((mapped success).1 0x40200ABC#64 (.inl (by decide)) (.refl 0x40200)).1,
    (unmapped 0x40200ABC#64 (.inl (by decide)) (.refl 0x40200)).1⟩

/-- A bit of the address field among the flags is dropped. -/
theorem map_page_updates_masked :
    PageTree smallMachine 1 ∧ ¬ CoveredByHuge smallMachine.mem 1 0x40200000#64 ∧
    ∃ s', vmmMapPage 1 0x40200000#64 0x9000#64 0x1003#64 smallMachine = .ok true s' ∧
      vmmGetFlags s'.mem 1 0x40200000#64 ≠ 0x1003#64 ||| vmmPresent := by
  have ran := result_eq (show resultValue (vmmMapPage 1 0x40200000#64 0x9000#64 0x1003#64
    smallMachine) = some true by decide +kernel)
  have written := wp_ok (@vmmMapPage_lookup _ _ (fun _ _ => False) smallMachine_booted.pageTree
    0x40200000#64 0x9000#64 0x1003#64) ran
  have flags := (LeafWritten.mapped (by decide) written
    (show SamePage 0x40200000#64 0x40200000#64 from rfl)).2
  refine ⟨smallMachine_booted.pageTree, smallMachine_not_huge, _, ran, fun same => ?_⟩
  exact absurd (flags.symm.trans same) (by decide)

end LithiumKernel.Mm
