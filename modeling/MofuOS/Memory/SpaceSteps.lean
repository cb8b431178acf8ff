import MofuOS.Memory.Spaces

/-! What making and freeing an address space does, table by table. -/
namespace MofuOS.Memory
open Lib

theorem PageTables.allocateNewAddressSpace_spec {kernelPageTable pml4 : Nat} {s t : TableMemory}
    (h : allocateNewAddressSpace kernelPageTable s = some (pml4,t)) :
    s.allocator.available = pml4 ::ₘ t.allocator.available ∧ (∀ f, f ≠ pml4 → t.mem f = s.mem f) ∧
      (∀ i : TableIndex, i.val < levelFourKernelEntriesStart → t.mem pml4 i = .unused) ∧
      (kernelPageTable ≠ pml4 → ∀ i : TableIndex, levelFourKernelEntriesStart ≤ i.val → t.mem pml4 i = s.mem kernelPageTable i) := by
  obtain ⟨⟨frame,allocator⟩,halloc,heq⟩ := Option.map_eq_some_iff.mp h
  obtain ⟨rfl,rfl⟩ := Prod.mk.inj heq
  refine ⟨MemoryMapFrameAllocator.available_of_allocateFrame halloc,fun f hne => ?_,fun i hi => ?_,fun hne i hi => ?_⟩ <;> dsimp only
  · rw [Function.update_of_ne hne,zeroFrame,Function.update_of_ne hne]
  · rw [Function.update_self,if_neg (Nat.not_le.mpr hi),zeroFrame,Function.update_self]
  · rw [Function.update_self,if_pos hi,zeroFrame,Function.update_of_ne hne]

namespace Spaces.Sound
variable {kernelPageTable : Nat} {kernelMem : TableStore} {pool : Nat → Prop} {place : Nat → Option (Nat × Nat)} {s t : Spaces}
  {pml4 p : Nat}

/-- Frames go from the free ones to the held ones or back. -/
theorem of_frames (h : s.Sound kernelPageTable kernelMem pool place) (hmem : t.memory.mem = s.memory.mem) (htops : t.tops = s.tops)
    (hframes : t.unplaced = s.unplaced) (hheld : ∀ f, s.Maps f → (f ∈ t.held ↔ f ∈ s.held)) :
    t.Sound kernelPageTable kernelMem pool place where
  tiers := h.tiers.congr fun f j q m hf => by
    rw [hmem]
    refine entryBelow_held fun hm hthere => hheld _ ?_
    subst hm
    exact h.maps_of_entry hf hthere
  tops := htops ▸ h.tops
  used := hmem ▸ h.used
  pooled := hframes ▸ h.pooled
  apart := hframes ▸ h.apart
  nodup := hframes ▸ h.nodup
  kernel := hmem ▸ h.kernel
  half := htops ▸ hmem ▸ h.half

theorem create {memory : TableMemory} (h : s.Sound kernelPageTable kernelMem pool place)
    (hcreate : PageTables.allocateNewAddressSpace kernelPageTable s.memory = some (pml4,memory)) :
    place pml4 = none ∧ (∀ f, f ≠ pml4 → memory.mem f = s.memory.mem f) ∧
      ({ s with memory, tops := insert pml4 s.tops } : Spaces).Sound kernelPageTable kernelMem pool
        (Function.update place pml4 (some (pml4,4))) := by
  obtain ⟨havail,hother,hlow,hhigh⟩ := PageTables.allocateNewAddressSpace_spec hcreate
  have hframes : s.unplaced = pml4 ::ₘ (memory.allocator.available + s.held.val) := by rw [unplaced,havail,Multiset.cons_add]
  have hmem : pml4 ∈ s.unplaced := hframes ▸ Multiset.mem_cons_self _ _
  have hnone := h.apart pml4 hmem
  have hnodup := h.nodup
  rw [hframes,Multiset.nodup_cons] at hnodup
  have hkernel : ∀ f, KernelTable kernelMem kernelPageTable f → f ≠ pml4 := fun f hf heq =>
    (h.kernel f hf).1 ((h.pooled f).mpr (.inl (heq ▸ hmem)))
  have hplace : ∀ {f q m}, Function.update place pml4 (some (pml4,4)) f = some (q,m) → f = pml4 ∧ q = pml4 ∧ m = 4 ∨
      f ≠ pml4 ∧ place f = some (q,m) := by
    intro f q m hf
    by_cases heq : f = pml4
    · rw [heq,Function.update_self] at hf
      obtain ⟨rfl,rfl⟩ := Prod.mk.inj (Option.some.inj hf)
      exact .inl ⟨heq,rfl,rfl⟩
    · rw [Function.update_of_ne heq] at hf
      exact .inr ⟨heq,hf⟩
  refine ⟨hnone,hother,⟨?_,fun f q => ?_,fun f q m j hf hj => ?_,fun f => ?_,fun f hf => ?_,hnodup.2,fun f hf => ?_,fun q hq j hj => ?_⟩⟩
  · refine h.tiers.plant pml4 hnone (fun m j hm => ?_) fun f j q m hf => ?_
    · obtain rfl : m = 3 := by omega
      by_cases hj : levelFourKernelEntriesStart ≤ j.val
      · rw [entryBelow,if_neg (by decide),if_pos ⟨rfl,hj⟩]
      · exact entryBelow_unused (hlow j (Nat.lt_of_not_le hj))
    · have hne : f ≠ pml4 := fun heq => Option.some_ne_none _ (hf.symm.trans (heq ▸ hnone))
      exact entryBelow_congr (congrFun (hother f hne) j)
  · rw [Finset.mem_insert]
    constructor
    · intro hf
      rcases hplace hf with ⟨rfl,rfl,-⟩ | ⟨-,hf⟩
      · exact ⟨rfl,.inl rfl⟩
      · obtain ⟨rfl,hq⟩ := (h.tops f q).mp hf
        exact ⟨rfl,.inr hq⟩
    · rintro ⟨rfl,rfl | hq⟩
      · exact Function.update_self ..
      · have hf := h.top_place hq
        have hne : f ≠ pml4 := fun heq => Option.some_ne_none _ (hf.symm.trans (heq ▸ hnone))
        exact (Function.update_of_ne hne ..).trans hf
  · rcases hplace hf with ⟨rfl,-,hm⟩ | ⟨hne,hf⟩
    · exact .inl (hlow j (hj (by omega)))
    · exact (congrFun (hother f hne) j).symm ▸ h.used f q m j hf hj
  · rw [h.pooled f,hframes,Multiset.mem_cons]
    by_cases heq : f = pml4
    · subst heq
      rw [Function.update_self]
      exact iff_of_true (.inl (.inl rfl)) (.inr (Option.some_ne_none _))
    · rw [Function.update_of_ne heq,or_iff_right heq]
      rfl
  · have hne : f ≠ pml4 := fun heq => hnodup.1 (heq ▸ hf)
    rw [Function.update_of_ne hne]
    exact h.apart f (hframes ▸ Multiset.mem_cons_of_mem hf)
  · exact ⟨(h.kernel f hf).1,(hother f (hkernel f hf)).trans (h.kernel f hf).2⟩
  · by_cases heq : q = pml4
    · rw [heq,← (h.kernel kernelPageTable (.inl rfl)).2]
      exact hhigh (hkernel kernelPageTable (.inl rfl)) j hj
    · exact (congrFun (hother q heq) j).trans (h.half q ((Finset.mem_insert.mp hq).resolve_left heq) j hj)

/-- A top table that leads nowhere in the user half is given up. -/
theorem fell (h : s.Sound kernelPageTable kernelMem pool place) (hp : p ∈ s.tops)
    (hempty : ∀ j, entryBelow s.held s.memory.mem 3 p j = none) (hmem : t.memory.mem = s.memory.mem) (htops : t.tops = s.tops.erase p)
    (hheld : t.held = s.held) (hframes : t.unplaced = p ::ₘ s.unplaced) :
    t.Sound kernelPageTable kernelMem pool (Function.update place p none) := by
  have hplace := h.top_place hp
  have hold : ∀ {f q m}, Function.update place p none f = some (q,m) → f ≠ p ∧ place f = some (q,m) := by
    intro f q m hf
    by_cases heq : f = p
    · rw [heq,Function.update_self] at hf
      cases hf
    · rw [Function.update_of_ne heq] at hf
      exact ⟨heq,hf⟩
  refine ⟨?_,fun f q => ?_,fun f q m j hf hj => ?_,fun f => ?_,fun f hf => ?_,?_,hmem ▸ h.kernel,fun q hq j hj => ?_⟩
  · rw [hheld,hmem]
    refine h.tiers.fell hplace (fun m j hm => ?_) fun _ _ _ _ _ _ => rfl
    obtain rfl : m = 3 := by omega
    exact hempty j
  · rw [htops,Finset.mem_erase]
    constructor
    · intro hf
      obtain ⟨hne,hf⟩ := hold hf
      obtain ⟨rfl,hq⟩ := (h.tops f q).mp hf
      exact ⟨rfl,hne,hq⟩
    · rintro ⟨rfl,hne,hq⟩
      exact (Function.update_of_ne hne ..).trans (h.top_place hq)
  · rw [hmem]
    exact h.used f q m j (hold hf).2 hj
  · rw [h.pooled f,hframes,Multiset.mem_cons]
    by_cases heq : f = p
    · subst heq
      exact iff_of_true (.inr (hplace ▸ Option.some_ne_none _)) (.inl (.inl rfl))
    · rw [Function.update_of_ne heq,or_iff_right heq]
  · rw [hframes,Multiset.mem_cons] at hf
    by_cases heq : f = p
    · rw [heq,Function.update_self]
    · rw [Function.update_of_ne heq]
      exact h.apart f (hf.resolve_left heq)
  · rw [hframes,Multiset.nodup_cons]
    exact ⟨fun hin => Option.some_ne_none _ (hplace.symm.trans (h.apart p hin)),h.nodup⟩
  · rw [htops,Finset.mem_erase] at hq
    rw [hmem]
    exact h.half q hq.2 j hj

end Spaces.Sound

/-- Something was freed below a table of level n. -/
structure Spaces.Cleared (kernelPageTable : Nat) (kernelMem : TableStore) (pool : Nat → Prop) (q n : Nat)
    (place place' : Nat → Option (Nat × Nat)) (s t : Spaces) : Prop where
  sound : t.Sound kernelPageTable kernelMem pool place'
  places : ∀ f, place' f = place f ∨ place' f = none ∧ ∃ m ≤ n, place f = some (q,m)
  memory : ∀ f, (∀ m ≤ n, place f ≠ some (q,m + 1)) → t.memory.mem f = s.memory.mem f
  /-- Last tables go only when they map nothing. -/
  lasts : ∀ f, place f = some (q,1) → t.memory.mem f = s.memory.mem f ∧ (place' f = some (q,1) ∨ ∀ i, s.memory.mem f i = .unused)

section Free
variable {kernelPageTable : Nat} {kernelMem : TableStore} {pool : Nat → Prop} {place place' place'' : Nat → Option (Nat × Nat)}
  {s t u : Spaces} {memory : TableMemory} {q n m f table pml4 : Nat} {i : TableIndex} {is : List TableIndex}

namespace Spaces.Cleared

theorem refl (h : s.Sound kernelPageTable kernelMem pool place) : Cleared kernelPageTable kernelMem pool q n place place s s :=
  ⟨h,fun _ => .inl rfl,fun _ _ => rfl,fun _ hf => ⟨rfl,.inl hf⟩⟩

theorem mono (h : Cleared kernelPageTable kernelMem pool q n place place' s t) (hle : n ≤ m) :
    Cleared kernelPageTable kernelMem pool q m place place' s t :=
  ⟨h.sound,fun f => (h.places f).imp_right fun ⟨hnone,k,hk,hf⟩ => ⟨hnone,k,hk.trans hle,hf⟩,
    fun f hf => h.memory f fun k hk => hf k (hk.trans hle),h.lasts⟩

theorem trans (h : Cleared kernelPageTable kernelMem pool q n place place' s t)
    (h' : Cleared kernelPageTable kernelMem pool q n place' place'' t u) : Cleared kernelPageTable kernelMem pool q n place place'' s u := by
  refine ⟨h'.sound,fun f => ?_,fun f hf => (h'.memory f fun m hm => ?_).trans (h.memory f hf),fun f hf => ?_⟩
  · rcases h'.places f with heq | ⟨hnone,m,hm,hf⟩
    · exact heq ▸ h.places f
    · rcases h.places f with heq | ⟨hgone,-⟩
      · exact .inr ⟨hnone,m,hm,heq.symm.trans hf⟩
      · exact absurd (hf.symm.trans hgone) (Option.some_ne_none _)
  · rcases h.places f with heq | ⟨hgone,-⟩
    · exact heq ▸ hf m hm
    · exact hgone ▸ (Option.some_ne_none _).symm
  · obtain ⟨hmem,hplace' | hunused⟩ := h.lasts f hf
    · obtain ⟨hmem',hplace'' | hunused⟩ := h'.lasts f hplace'
      · exact ⟨hmem'.trans hmem,.inl hplace''⟩
      · exact ⟨hmem'.trans hmem,.inr fun i => hmem ▸ hunused i⟩
    · refine ⟨?_,.inr hunused⟩
      rcases h.places f with heq | ⟨hgone,-⟩
      · exact (h'.lasts f (heq.trans hf)).1.trans hmem
      · exact (h'.memory f fun m _ => hgone ▸ (Option.some_ne_none _).symm).trans hmem

/-- Higher places stay. -/
theorem place_eq (h : Cleared kernelPageTable kernelMem pool q n place place' s t) (hf : place f = some (q,m)) (hm : n < m) :
    place' f = some (q,m) := by
  rcases h.places f with heq | ⟨-,k,hk,hf'⟩
  · exact heq.trans hf
  · obtain ⟨-,rfl⟩ := Prod.mk.inj (Option.some.inj (hf'.symm.trans hf))
    omega

end Spaces.Cleared

/-- What freeing below a table of a level comes to. -/
def FreesBelow (kernelPageTable : Nat) (kernelMem : TableStore) (pool : Nat → Prop) (n : Nat)
    (below : Nat → TableMemory → Except Nat TableMemory) : Prop :=
  ∀ {q table s memory place}, Spaces.Sound kernelPageTable kernelMem pool place s → place table = some (q,n + 1) →
    below table s.memory = .ok memory → ∃ place', Spaces.Cleared kernelPageTable kernelMem pool q n place place' s { s with memory } ∧
      (∀ i, entryBelow s.held memory.mem n table i = none) ∧ (n = 0 → ∀ i, s.memory.mem table i = .unused)

theorem freeEntry_spec {below : Nat → TableMemory → Except Nat TableMemory} (hbelow : FreesBelow kernelPageTable kernelMem pool n below)
    (h : s.Sound kernelPageTable kernelMem pool place) (hplace : place table = some (q,n + 2))
    (huser : n + 1 = 3 → i.val < levelFourKernelEntriesStart) (hok : PageTables.freeEntry below table s.memory i = .ok memory) :
    ∃ place', Spaces.Cleared kernelPageTable kernelMem pool q (n + 1) place place' s { s with memory } ∧
      (∀ j, memory.mem table j = s.memory.mem table j ∨ memory.mem table j = .unused) ∧
      entryBelow s.held memory.mem (n + 1) table i = none := by
  rw [PageTables.freeEntry] at hok
  by_cases hentry : TableStore.isTableEntry (s.memory.mem table i) = true
  · rw [if_pos hentry] at hok
    have hchild : s.memory.mem.child table i = some (s.memory.mem table i).addr := by rw [TableStore.child,if_pos hentry]
    have hb : entryBelow s.held s.memory.mem (n + 1) table i = some _ := (entryBelow_succ huser).trans hchild
    generalize (s.memory.mem table i).addr = b at hok hchild hb
    cases hfree : below b s.memory with
    | error panic =>
      rw [hfree] at hok
      cases hok
    | ok u =>
      rw [hfree] at hok
      have hbplace := h.tiers.typed hplace hb
      obtain ⟨place₁,hcleared,hleaf,hlast⟩ := hbelow h hbplace hfree
      -- the table itself was not touched
      have htable : u.mem table = s.memory.mem table := hcleared.memory table fun m hm => by
        rw [hplace]
        intro heq
        obtain ⟨-,hm'⟩ := Prod.mk.inj (Option.some.inj heq)
        omega
      have haddr : (u.mem table i).addr = b := by
        rw [htable]
        exact (child_eq_some.mp hchild).2.2
      have hplace₁ := hcleared.place_eq hplace (by omega)
      have hb₁ : entryBelow s.held u.mem (n + 1) table i = some b := (entryBelow_congr (congrFun htable i)).trans hb
      cases hok
      have hframes : (u.allocator.deallocateFrame (u.mem table i).addr).available + s.held.val =
          b ::ₘ (u.allocator.available + s.held.val) := by
        rw [haddr,MemoryMapFrameAllocator.available_deallocateFrame,Multiset.cons_add]
      have hsound := hcleared.sound.unlink (t := { s with memory := ⟨u.mem.setEntry table i .unused,u.allocator.deallocateFrame
        (u.mem table i).addr⟩ }) hplace₁ hb₁ (fun m j hm => Nat.succ.inj hm ▸ hleaf j) rfl rfl (fun _ _ => Iff.rfl) hframes
      refine ⟨_,⟨hsound,fun f => ?_,fun f hf => ?_,fun f hf => ?_⟩,fun j => ?_,entryBelow_unused setEntry_self⟩
      · by_cases heq : f = b
        · rw [heq,Function.update_self]
          exact .inr ⟨rfl,n + 1,le_rfl,hbplace⟩
        · rw [Function.update_of_ne heq]
          exact (hcleared.mono (Nat.le_succ n)).places f
      · have hne : f ≠ table := fun heq => hf (n + 1) le_rfl (heq ▸ hplace)
        funext j
        exact (setEntry_of_ne (.inl hne)).trans (congrFun (hcleared.memory f fun m hm => hf m (hm.trans (Nat.le_succ n))) j)
      · obtain ⟨hmem,hwhere⟩ := hcleared.lasts f hf
        have hne : f ≠ table := fun heq => by
          obtain ⟨-,hm⟩ := Prod.mk.inj (Option.some.inj ((heq ▸ hf).symm.trans hplace))
          omega
        refine ⟨funext fun j => (setEntry_of_ne (.inl hne)).trans (congrFun hmem j),?_⟩
        by_cases heq : f = b
        · obtain ⟨-,hm⟩ := Prod.mk.inj (Option.some.inj ((heq ▸ hf).symm.trans hbplace))
          exact .inr (heq ▸ hlast (by omega))
        · rw [Function.update_of_ne heq]
          exact hwhere
      · by_cases hji : j = i
        · rw [hji]
          exact .inr setEntry_self
        · exact .inl ((setEntry_of_ne (.inr hji)).trans (congrFun htable j))
  · rw [if_neg hentry] at hok
    cases hok
    refine ⟨place,.refl h,fun j => .inl rfl,?_⟩
    rw [entryBelow_succ huser,TableStore.child,if_neg hentry]

theorem freeEntries_spec {below : Nat → TableMemory → Except Nat TableMemory} (hbelow : FreesBelow kernelPageTable kernelMem pool n below)
    (h : s.Sound kernelPageTable kernelMem pool place) (hplace : place table = some (q,n + 2))
    (huser : ∀ i ∈ is, n + 1 = 3 → i.val < levelFourKernelEntriesStart)
    (hok : is.foldlM (PageTables.freeEntry below table) s.memory = .ok memory) :
    ∃ place', Spaces.Cleared kernelPageTable kernelMem pool q (n + 1) place place' s { s with memory } ∧
      (∀ j, memory.mem table j = s.memory.mem table j ∨ memory.mem table j = .unused) ∧
      ∀ i ∈ is, entryBelow s.held memory.mem (n + 1) table i = none := by
  induction is generalizing s place with
  | nil =>
    cases hok
    exact ⟨place,.refl h,fun _ => .inl rfl,fun _ hi => (List.not_mem_nil hi).elim⟩
  | cons i is ih =>
    obtain ⟨hi,his⟩ := List.forall_mem_cons.mp huser
    rw [List.foldlM_cons] at hok
    obtain ⟨u,hu,hrest⟩ := bind_eq_ok hok
    obtain ⟨place₁,hfirst,hentries,hgone⟩ := freeEntry_spec hbelow h hplace hi hu
    obtain ⟨place₂,hcleared,hentries',hnone⟩ := ih hfirst.sound (hfirst.place_eq hplace (by omega)) his hrest
    refine ⟨place₂,hfirst.trans hcleared,fun j => ?_,List.forall_mem_cons.mpr ⟨?_,hnone⟩⟩
    · rcases hentries' j with heq | hunused
      · rw [heq]
        exact hentries j
      · exact .inr hunused
    · rcases hentries' i with heq | hunused
      · exact (entryBelow_congr heq).trans hgone
      · exact entryBelow_unused hunused

theorem freeTables_spec (hn : n ≤ 2) : FreesBelow kernelPageTable kernelMem pool n (PageTables.freeTables true n) := by
  induction n with
  | zero =>
    intro q table s memory place h hplace hok
    rw [PageTables.freeTables] at hok
    split_ifs at hok with hmapped
    cases hok
    have hunused : ∀ i, s.memory.mem table i = .unused := fun i => by
      by_contra hne
      exact hmapped ⟨rfl,i,hne⟩
    exact ⟨place,.refl h,fun i => entryBelow_unused (hunused i),fun _ => hunused⟩
  | succ n ih =>
    intro q table s memory place h hplace hok
    obtain ⟨place',hcleared,-,hgone⟩ := freeEntries_spec (ih (by omega)) h hplace (fun _ _ hthree => by omega) hok
    exact ⟨place',hcleared,fun i => hgone i (List.mem_finRange i),fun hzero => absurd hzero (Nat.succ_ne_zero n)⟩

/-- It returns where nothing is mapped. -/
def FreesUnmapped (kernelPageTable : Nat) (kernelMem : TableStore) (pool : Nat → Prop) (n : Nat)
    (below : Nat → TableMemory → Except Nat TableMemory) : Prop :=
  ∀ {q table s place}, Spaces.Sound kernelPageTable kernelMem pool place s → place table = some (q,n + 1) →
    (∀ f, place f = some (q,1) → ∀ i, s.memory.mem f i = .unused) → ∃ memory, below table s.memory = .ok memory

theorem freeEntries_total {below : Nat → TableMemory → Except Nat TableMemory} (hbelow : FreesBelow kernelPageTable kernelMem pool n below)
    (htotal : FreesUnmapped kernelPageTable kernelMem pool n below) (h : s.Sound kernelPageTable kernelMem pool place)
    (hplace : place table = some (q,n + 2)) (huser : ∀ i ∈ is, n + 1 = 3 → i.val < levelFourKernelEntriesStart)
    (hunused : ∀ f, place f = some (q,1) → ∀ i, s.memory.mem f i = .unused) :
    ∃ memory, is.foldlM (PageTables.freeEntry below table) s.memory = .ok memory := by
  induction is generalizing s place with
  | nil => exact ⟨s.memory,rfl⟩
  | cons i is ih =>
    obtain ⟨hi,his⟩ := List.forall_mem_cons.mp huser
    have hfirst : ∃ u, PageTables.freeEntry below table s.memory i = .ok u := by
      rw [PageTables.freeEntry]
      by_cases hentry : TableStore.isTableEntry (s.memory.mem table i) = true
      · have hchild : s.memory.mem.child table i = some (s.memory.mem table i).addr := by rw [TableStore.child,if_pos hentry]
        obtain ⟨u,hu⟩ := htotal h (h.tiers.typed hplace ((entryBelow_succ hi).trans hchild)) hunused
        rw [if_pos hentry,hu]
        exact ⟨_,rfl⟩
      · rw [if_neg hentry]
        exact ⟨_,rfl⟩
    obtain ⟨u,hu⟩ := hfirst
    obtain ⟨place₁,hcleared,-,-⟩ := freeEntry_spec hbelow h hplace hi hu
    obtain ⟨memory,hrest⟩ := ih hcleared.sound (hcleared.place_eq hplace (by omega)) his fun f hf j => by
      rcases hcleared.places f with heq | ⟨hgone,-⟩
      · have hf := heq.symm.trans hf
        rw [(hcleared.lasts f hf).1]
        exact hunused f hf j
      · exact absurd (hf.symm.trans hgone) (Option.some_ne_none _)
    refine ⟨memory,?_⟩
    rw [List.foldlM_cons,hu]
    exact hrest

theorem freeTables_total (hn : n ≤ 2) : FreesUnmapped kernelPageTable kernelMem pool n (PageTables.freeTables true n) := by
  induction n with
  | zero =>
    intro q table s place h hplace hunused
    refine ⟨s.memory,?_⟩
    rw [PageTables.freeTables,if_neg fun hmapped => hmapped.2.elim fun i hi => hi (hunused table hplace i)]
  | succ n ih =>
    intro q table s place h hplace hunused
    exact freeEntries_total (freeTables_spec (by omega)) (ih (by omega)) h hplace (fun _ _ hthree => by omega) hunused

/-- A release build does what a debug build does that returns. -/
theorem freeEntries_release {below below' : Nat → TableMemory → Except Nat TableMemory}
    (hbelow : ∀ b s t, below b s = .ok t → below' b s = .ok t) {s t : TableMemory}
    (hok : is.foldlM (PageTables.freeEntry below table) s = .ok t) : is.foldlM (PageTables.freeEntry below' table) s = .ok t := by
  induction is generalizing s with
  | nil => exact hok
  | cons i is ih =>
    rw [List.foldlM_cons] at hok ⊢
    obtain ⟨u,hu,hrest⟩ := bind_eq_ok hok
    have hfirst : PageTables.freeEntry below' table s i = .ok u := by
      rw [PageTables.freeEntry] at hu ⊢
      by_cases hentry : TableStore.isTableEntry (s.mem table i) = true
      · rw [if_pos hentry] at hu ⊢
        cases hb : below (s.mem table i).addr s with
        | error panic =>
          rw [hb] at hu
          cases hu
        | ok v =>
          rw [hb] at hu
          rw [hbelow _ _ _ hb]
          exact hu
      · rw [if_neg hentry] at hu ⊢
        exact hu
    rw [hfirst]
    exact ih hrest

theorem freeUserTables_release {s t : TableMemory} (hok : PageTables.freeUserTables true pml4 s = .ok t) :
    PageTables.freeUserTables false pml4 s = .ok t := by
  have hlevel : ∀ n b s t, PageTables.freeTables true n b s = .ok t → PageTables.freeTables false n b s = .ok t := by
    intro n
    induction n with
    | zero =>
      intro b s t h
      rw [PageTables.freeTables] at h ⊢
      split_ifs at h
      rw [if_neg fun hno => Bool.false_ne_true hno.1]
      exact h
    | succ n ih =>
      intro b s t h
      rw [PageTables.freeTables] at h ⊢
      exact freeEntries_release ih h
  rw [PageTables.freeUserTables] at hok ⊢
  exact freeEntries_release (hlevel 2) hok

theorem user_of_mem_take : ∀ i ∈ (List.finRange entriesPerTable).take levelFourKernelEntriesStart, i.val < levelFourKernelEntriesStart := by
  intro i hi
  obtain ⟨k,hk,rfl⟩ := List.mem_take_iff_getElem.mp hi
  rw [List.getElem_finRange]
  exact (Nat.lt_min.mp hk).1

/-- When free_user_tables has returned, everything in the user half is free, and nothing else has changed. -/
theorem freeUserTables_spec (h : s.Sound kernelPageTable kernelMem pool place) (hlive : pml4 ∈ s.tops)
    (hok : PageTables.freeUserTables true pml4 s.memory = .ok memory) :
    ∃ place', Spaces.Cleared kernelPageTable kernelMem pool pml4 3 place place' s { s with memory } ∧
      ∀ i, entryBelow s.held memory.mem 3 pml4 i = none := by
  obtain ⟨place',hcleared,-,hgone⟩ := freeEntries_spec (freeTables_spec (Nat.le_refl 2)) h (h.top_place hlive)
    (fun i hi _ => user_of_mem_take i hi) hok
  refine ⟨place',hcleared,fun i => ?_⟩
  by_cases hi : levelFourKernelEntriesStart ≤ i.val
  · rw [entryBelow,if_neg (by decide),if_pos ⟨rfl,hi⟩]
  · refine hgone i (List.mem_take_iff_getElem.mpr ⟨i.val,?_,?_⟩)
    · rw [List.length_finRange]
      exact Nat.lt_min.mpr ⟨Nat.lt_of_not_le hi,i.isLt⟩
    · exact List.getElem_finRange ..

/-- free_user_tables returns exactly when the last tables of the address space map nothing. -/
theorem freeUserTables_total (h : s.Sound kernelPageTable kernelMem pool place) (hlive : pml4 ∈ s.tops) :
    (∃ memory, PageTables.freeUserTables true pml4 s.memory = .ok memory) ↔
      ∀ f, place f = some (pml4,1) → ∀ i, s.memory.mem f i = .unused := by
  constructor
  · rintro ⟨memory,hok⟩ f hf
    obtain ⟨place',hcleared,hgone⟩ := freeUserTables_spec h hlive hok
    refine (hcleared.lasts f hf).2.resolve_left fun hstays => ?_
    -- nothing hangs from the top table any more
    obtain ⟨a,path,ha,hlen,hpath⟩ := hcleared.sound.tiers.exists_root hstays
    obtain ⟨rfl,-⟩ := (hcleared.sound.tops a pml4).mp ha
    obtain ⟨i,path,rfl⟩ := List.exists_cons_of_length_pos (by omega : 0 < path.length)
    obtain ⟨m,b,hm,hb,-⟩ := follow_cons_eq_some hpath
    obtain rfl : m = 3 := by omega
    exact Option.some_ne_none _ (hb.symm.trans (hgone i))
  · exact fun hunused => freeEntries_total (freeTables_spec (Nat.le_refl 2)) (freeTables_total (Nat.le_refl 2)) h (h.top_place hlive)
      (fun i hi _ => user_of_mem_take i hi) hunused

end Free
end MofuOS.Memory
