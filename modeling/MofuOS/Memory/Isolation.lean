import MofuOS.Memory.SpaceSteps

/-! What the address spaces of the system cannot do to one another. -/
namespace MofuOS.Memory
open Lib

/-- The tables and pages of an address space stay as they are. -/
structure Spaces.Kept (q : Nat) (place place' : Nat → Option (Nat × Nat)) (s t : Spaces) : Prop where
  places : ∀ f m, place f = some (q,m) → place' f = some (q,m)
  memory : ∀ f m, place f = some (q,m) → t.memory.mem f = s.memory.mem f

namespace Spaces.Sound
variable {kernelPageTable : Nat} {kernelMem mem' : TableStore} {pool : Nat → Prop} {place place' : Nat → Option (Nat × Nat)}
  {s t : Spaces} {a : SpaceAct} {pml4 p q f table n m v : Nat} {path : List TableIndex} {i j : TableIndex} {outer : PageTableFlags}

section Steps

theorem page_place (h : s.Sound kernelPageTable kernelMem pool place) (hplace : place table = some (q,1))
    (hpresent : (s.memory.mem table i).flags.present = true) :
    (s.memory.mem table i).addr ∈ s.held ∨ place (s.memory.mem table i).addr = some (q,0) := by
  by_cases hheld : (s.memory.mem table i).addr ∈ s.held
  · exact .inl hheld
  · exact .inr (h.tiers.typed hplace (entryBelow_zero.mpr ⟨hpresent,hheld,rfl⟩))

theorem held_place (h : s.Sound kernelPageTable kernelMem pool place) (hf : f ∈ s.held) : place f = none :=
  h.apart f (Multiset.mem_add.mpr (.inr hf))

theorem table_place (h : s.Sound kernelPageTable kernelMem pool place) (hf : s.IsTable f) : ∃ n q, place f = some (q,n + 1) := by
  obtain ⟨q,hq,path,hlen,hpath⟩ := hf
  obtain ⟨m,hm,hplace⟩ := h.tiers.follow_place (h.top_place hq) hpath
  exact ⟨m - 1,q,by rw [hplace,Nat.sub_add_cancel (by omega)]⟩

/-- What is placed is a table, or a page that is mapped. -/
theorem placed_use (h : s.Sound kernelPageTable kernelMem pool place) (hf : place f = some (q,n)) : s.IsTable f ∨ s.Maps f := by
  obtain ⟨a,path,ha,hlen,hpath⟩ := h.tiers.exists_root hf
  have hlive := ((h.tops a q).mp ha).2
  obtain rfl : a = q := ((h.tops a q).mp ha).1
  by_cases hshort : path.length ≤ 3
  · exact .inl ⟨a,hlive,path,hshort,hpath⟩
  · have hne : path ≠ [] := fun hnil => hshort (hnil ▸ Nat.zero_le 3)
    rw [← List.dropLast_concat_getLast hne] at hpath
    obtain ⟨m,table,hm,htable,hentry⟩ := follow_concat_eq_some hpath
    rw [List.length_dropLast] at hm
    obtain rfl : m = 0 := by omega
    obtain ⟨hpresent,-,haddr⟩ := entryBelow_zero.mp hentry
    have hthree : path.dropLast.length = 3 := by
      rw [List.length_dropLast]
      omega
    refine .inr ⟨a,path.dropLast,path.getLast hne,table,hthree,?_,hpresent,haddr⟩
    rw [tableAt,if_pos ⟨hlive,hthree.le,fun hnil => by rw [hnil] at hthree; cases hthree⟩]
    exact htable

theorem maps_not_free (h : s.Sound kernelPageTable kernelMem pool place) (hf : s.Maps f) : f ∉ s.memory.allocator.available := by
  obtain ⟨pml4,path,i,table,hlen,ht,hpresent,rfl⟩ := hf
  obtain ⟨n,hn,-,hplace,-⟩ := h.tableAt_place ht
  obtain rfl : n = 0 := by omega
  exact h.not_free hplace hpresent

/-- A held frame or a page of one address space is written to. -/
theorem write_frame (h : s.Sound kernelPageTable kernelMem pool place) (contents : TableIndex → TableEntry)
    (hf : f ∈ s.held ∨ place f = some (p,0)) :
    ({ s with memory := { s.memory with mem := Function.update s.memory.mem f contents } } : Spaces).Sound kernelPageTable kernelMem pool place ∧
      ∀ b q m, p ≠ q ∨ m ≠ 0 → place b = some (q,m) → Function.update s.memory.mem f contents b = s.memory.mem b := by
  have hne : ∀ b q m, p ≠ q ∨ m ≠ 0 → place b = some (q,m) → b ≠ f := by
    rintro b q m hno hb rfl
    rcases hf with hheld | hpage
    · exact Option.some_ne_none _ (hb.symm.trans (h.held_place hheld))
    · obtain ⟨hpq,hm⟩ := Prod.mk.inj (Option.some.inj (hpage.symm.trans hb))
      exact hno.elim (· hpq) (· hm.symm)
  refine ⟨h.of_tables fun b hb => Function.update_of_ne ?_ ..,fun b q m hno hb => Function.update_of_ne (hne b q m hno hb) ..⟩
  rcases hb with ⟨q,m,hb⟩ | hb
  · exact hne b q (m + 1) (.inr (Nat.succ_ne_zero m)) hb
  · rintro rfl
    rcases hf with hheld | hpage
    · exact (h.kernel b hb).1 ((h.pooled b).mpr (.inl (Multiset.mem_add.mpr (.inr hheld))))
    · exact Option.some_ne_none _ (hpage.symm.trans (h.kernel_place hb))

theorem kept_of_entry {entry : TableEntry} (hplace : place table = some (p,n)) (hne : p ≠ q)
    (hmem : t.memory.mem = s.memory.mem.setEntry table i entry) : ∀ f m, place f = some (q,m) → t.memory.mem f = s.memory.mem f := by
  intro f m hf
  have hft : f ≠ table := by
    rintro rfl
    exact hne (Prod.mk.inj (Option.some.inj (hplace.symm.trans hf))).1
  rw [hmem]
  exact funext fun j => setEntry_of_ne (.inl hft)

theorem kept_of_update {o : Option (Nat × Nat)} (hf : ∀ m, place f ≠ some (q,m)) (b m : Nat) (hb : place b = some (q,m)) :
    Function.update place f o b = some (q,m) := by
  have hne : b ≠ f := fun heq => hf m (heq ▸ hb)
  exact (Function.update_of_ne hne ..).trans hb

theorem step_hold (h : s.Sound kernelPageTable kernelMem pool place) (hstep : step kernelPageTable .hold s = some t) :
    t.Sound kernelPageTable kernelMem pool place ∧ t.memory.mem = s.memory.mem := by
  obtain ⟨⟨frame,allocator⟩,halloc,rfl⟩ := Option.map_eq_some_iff.mp hstep
  have havail := MemoryMapFrameAllocator.available_of_allocateFrame halloc
  have hfree : frame ∈ s.memory.allocator.available := havail ▸ Multiset.mem_cons_self _ _
  have hnew : frame ∉ s.held := Multiset.disjoint_left.mp (Multiset.nodup_add.mp h.nodup).2.2 hfree
  refine ⟨h.of_frames rfl rfl ?_ fun f hf => ?_,rfl⟩
  · rw [unplaced,unplaced,havail]
    dsimp only
    rw [Finset.insert_val_of_notMem hnew,Multiset.add_cons,Multiset.cons_add]
  · rw [Finset.mem_insert,or_iff_right]
    rintro rfl
    exact h.maps_not_free hf hfree

theorem step_release (h : s.Sound kernelPageTable kernelMem pool place) (hunmapped : ¬ s.Maps f)
    (hstep : step kernelPageTable (.release f) s = some t) : t.Sound kernelPageTable kernelMem pool place ∧ t.memory.mem = s.memory.mem := by
  rw [step] at hstep
  split_ifs at hstep with hheld
  cases hstep
  refine ⟨h.of_frames rfl rfl ?_ fun g hg => ?_,rfl⟩
  · rw [unplaced,unplaced,MemoryMapFrameAllocator.available_deallocateFrame,Finset.erase_val,Multiset.cons_add,← Multiset.add_cons,
      Multiset.cons_erase hheld]
  · rw [Finset.mem_erase,and_iff_right]
    rintro rfl
    exact hunmapped hg

theorem step_unmap (h : s.Sound kernelPageTable kernelMem pool place) (hplace : place table = some (p,1))
    (hpresent : (s.memory.mem table i).flags.present = true) (ht : t.memory.mem = s.memory.mem.setEntry table i .unused)
    (htops : t.tops = s.tops) (hheld : t.held = insert (s.memory.mem table i).addr s.held)
    (halloc : t.memory.allocator = s.memory.allocator) :
    ∃ place', t.Sound kernelPageTable kernelMem pool place' ∧ ∀ q, p ≠ q → ∀ b m, place b = some (q,m) → place' b = some (q,m) := by
  by_cases hmem : (s.memory.mem table i).addr ∈ s.held
  · have hsame : entryBelow s.held (s.memory.mem.setEntry table i .unused) 0 table i = entryBelow s.held s.memory.mem 0 table i := by
      rw [entryBelow_unused setEntry_self,entryBelow,if_pos rfl,if_neg fun hno => hno.2 hmem]
    have halter := h.alter hplace (fun hthree => absurd hthree (by decide)) (.inl rfl) hsame
    have heq : t = s.setEntry table i .unused := by
      obtain ⟨⟨mem,allocator⟩,tops,held⟩ := t
      obtain rfl : mem = _ := ht
      obtain rfl : tops = _ := htops
      obtain rfl : held = _ := hheld
      obtain rfl : allocator = _ := halloc
      rw [Finset.insert_eq_of_mem hmem]
      rfl
    exact ⟨place,heq ▸ halter,fun _ _ _ _ => id⟩
  · have hbelow := entryBelow_zero.mpr ⟨hpresent,hmem,rfl⟩
    have hb := h.tiers.typed hplace hbelow
    refine ⟨_,h.unlink hplace hbelow (fun m j hm => absurd hm (Nat.succ_ne_zero m).symm) ht htops (fun f hf => ?_) ?_,fun q hne b m hbm => ?_⟩
    · rw [hheld,Finset.mem_insert,or_iff_right hf]
    · rw [unplaced,unplaced,halloc,hheld,Finset.insert_val_of_notMem hmem,Multiset.add_cons]
    · refine kept_of_update (fun k hk => hne ?_) b m hbm
      exact (Prod.mk.inj (Option.some.inj (hb.symm.trans hk))).1

/-- Every step keeps the frames apart, and leaves the tables of the other address spaces as they are. -/
theorem step_sound (h : s.Sound kernelPageTable kernelMem pool place) (hcareful : careful a s) (hstep : step kernelPageTable a s = some t) :
    ∃ place', t.Sound kernelPageTable kernelMem pool place' ∧ ∀ q, a.space ≠ some q → Kept q place place' s t := by
  cases a with
  | create =>
    obtain ⟨⟨pml4,memory⟩,hcreate,rfl⟩ := Option.map_eq_some_iff.mp hstep
    obtain ⟨hnone,hother,hsound⟩ := h.create hcreate
    refine ⟨_,hsound,fun q _ => ⟨kept_of_update fun m => hnone ▸ (Option.some_ne_none _).symm,fun f m hf => hother f ?_⟩⟩
    rintro rfl
    exact Option.some_ne_none _ (hf.symm.trans hnone)
  | hold =>
    obtain ⟨hsound,hmem⟩ := h.step_hold hstep
    exact ⟨place,hsound,fun q _ => ⟨fun _ _ => id,fun _ _ _ => by rw [hmem]⟩⟩
  | release frame =>
    obtain ⟨hsound,hmem⟩ := h.step_release hcareful hstep
    exact ⟨place,hsound,fun q _ => ⟨fun _ _ => id,fun _ _ _ => by rw [hmem]⟩⟩
  | fill frame contents =>
    rw [step] at hstep
    split_ifs at hstep with hheld
    cases hstep
    refine ⟨place,(h.write_frame contents (p := 0) (.inl hheld)).1,fun q _ => ⟨fun _ _ => id,fun f m hf => Function.update_of_ne ?_ ..⟩⟩
    rintro rfl
    exact Option.some_ne_none _ (hf.symm.trans (h.held_place hheld))
  | store pml4 path i contents =>
    obtain ⟨table,ht,hstep⟩ := Option.bind_eq_some_iff.mp hstep
    split_ifs at hstep with hguard
    cases hstep
    obtain ⟨hlen,hpresent⟩ := hguard
    obtain ⟨n,hn,-,hplace,-⟩ := h.tableAt_place ht
    obtain rfl : n = 0 := by omega
    obtain ⟨hsound,hkept⟩ := h.write_frame contents (h.page_place hplace hpresent)
    exact ⟨place,hsound,fun q hq => ⟨fun _ _ => id,fun f m => hkept f q m (.inl fun heq => hq (heq ▸ rfl))⟩⟩
  | link pml4 path i entry =>
    obtain ⟨table,ht,hstep⟩ := Option.bind_eq_some_iff.mp hstep
    split_ifs at hstep with hguard
    cases hstep
    obtain ⟨hunused,hpresent,hhuge,hheld,hempty⟩ := hguard
    obtain ⟨n,hn,-,hplace,huser⟩ := h.tableAt_place ht
    have hframes : s.unplaced = entry.addr ::ₘ (s.memory.allocator.available + (s.held.erase entry.addr).val) := by
      rw [unplaced,Finset.erase_val,← Multiset.add_cons,Multiset.cons_erase hheld]
    have hnone := h.held_place hheld
    refine ⟨_,h.link hplace huser hunused hpresent hhuge hcareful (fun hne => hempty (by omega)) rfl rfl rfl hframes,fun q hq => ?_⟩
    exact ⟨kept_of_update fun m => hnone ▸ (Option.some_ne_none _).symm,kept_of_entry hplace (fun heq => hq (heq ▸ rfl)) rfl⟩
  | share pml4 path i entry =>
    obtain ⟨table,ht,hstep⟩ := Option.bind_eq_some_iff.mp hstep
    split_ifs at hstep with hguard
    cases hstep
    obtain ⟨hlen,hunused,hpresent,hheld⟩ := hguard
    obtain ⟨n,hn,-,hplace,huser⟩ := h.tableAt_place ht
    obtain rfl : n = 0 := by omega
    refine ⟨place,h.alter hplace huser (.inr ⟨hpresent,fun hno => absurd rfl hno⟩) ?_,fun q hq => ⟨fun _ _ => id,kept_of_entry hplace
      (fun heq => hq (heq ▸ rfl)) rfl⟩⟩
    rw [entryBelow_unused hunused,entryBelow,if_pos rfl,setEntry_self,if_neg fun hno => hno.2 hheld]
  | allow pml4 path i flags =>
    obtain ⟨table,ht,hstep⟩ := Option.bind_eq_some_iff.mp hstep
    split_ifs at hstep with hguard
    cases hstep
    obtain ⟨hpresent,hflags⟩ := hguard
    obtain ⟨n,hn,-,hplace,huser⟩ := h.tableAt_place ht
    refine ⟨place,h.alter hplace huser ?_ ?_,fun q hq => ⟨fun _ _ => id,kept_of_entry hplace (fun heq => hq (heq ▸ rfl)) rfl⟩⟩
    · rcases h.used table pml4 n i hplace huser with hunused | ⟨-,hhuge⟩
      · rw [hunused] at hpresent
        cases hpresent
      · exact .inr ⟨hflags,hhuge⟩
    · rw [entryBelow,entryBelow,TableStore.child,TableStore.child,TableStore.isTableEntry,TableStore.isTableEntry,setEntry_self]
      simp only [hpresent,hflags]
  | unmap pml4 path i =>
    obtain ⟨table,ht,hstep⟩ := Option.bind_eq_some_iff.mp hstep
    split_ifs at hstep with hguard
    cases hstep
    obtain ⟨hlen,hpresent⟩ := hguard
    obtain ⟨n,hn,-,hplace,-⟩ := h.tableAt_place ht
    obtain rfl : n = 0 := by omega
    obtain ⟨place',hsound,hplaces⟩ := h.step_unmap (t := { s.setEntry table i .unused with held := insert (s.memory.mem table i).addr s.held })
      hplace hpresent rfl rfl rfl rfl
    refine ⟨place',hsound,fun q hq => ⟨hplaces q fun heq => hq (heq ▸ rfl),kept_of_entry hplace (fun heq => hq (heq ▸ rfl)) rfl⟩⟩
  | free pml4 =>
    rw [step] at hstep
    split_ifs at hstep with hlive
    cases hfree : PageTables.freeUserTables true pml4 s.memory with
    | error panic =>
      rw [hfree] at hstep
      cases hstep
    | ok memory =>
      rw [hfree] at hstep
      cases hstep
      obtain ⟨place',hcleared,hgone⟩ := freeUserTables_spec h hlive hfree
      have hframes : (PageTables.freePml4Frame pml4 memory).allocator.available + s.held.val =
          pml4 ::ₘ (memory.allocator.available + s.held.val) := by
        rw [PageTables.freePml4Frame,MemoryMapFrameAllocator.available_deallocateFrame,Multiset.cons_add]
      refine ⟨_,hcleared.sound.fell hlive hgone rfl rfl rfl hframes,fun q hq => ⟨fun b m hb => ?_,fun f m hf => ?_⟩⟩
      · have hne : pml4 ≠ q := fun heq => hq (heq ▸ rfl)
        rcases hcleared.places b with heq | ⟨-,k,-,hbk⟩
        · refine kept_of_update (fun k hk => hne ?_) b m (heq.trans hb)
          exact (Prod.mk.inj (Option.some.inj ((hcleared.sound.top_place hlive).symm.trans hk))).1
        · exact absurd (Prod.mk.inj (Option.some.inj (hbk.symm.trans hb))).1 hne
      · refine hcleared.memory f fun k _ hk => hq ?_
        exact congrArg some (Prod.mk.inj (Option.some.inj (hk.symm.trans hf))).1

end Steps

section Walks

/-- What the processor finds for a program depends on the tables of its address space only. -/
theorem hardwareWalk_eq (h : s.Sound kernelPageTable kernelMem pool place) (hplace : place table = some (q,n + 1))
    (huser : n = 3 → (tableIndex v 3).val < levelFourKernelEntriesStart)
    (hmem : ∀ f m, place f = some (q,m + 1) → mem' f = s.memory.mem f) :
    hardwareWalk mem' v n table outer = hardwareWalk s.memory.mem v n table outer := by
  induction n generalizing table outer with
  | zero => rw [hardwareWalk,hardwareWalk,hmem table 0 hplace]
  | succ n ih =>
    rw [hardwareWalk,hardwareWalk,hmem table (n + 1) hplace]
    split_ifs with hpresent hhuge
    · rfl
    · have hchild := child_eq_some.mpr ⟨hpresent,Bool.not_eq_true _ ▸ hhuge,rfl⟩
      have huser' : n + 1 = 3 → (tableIndex v (n + 1)).val < levelFourKernelEntriesStart := fun hthree => by
        rw [hthree]
        exact huser hthree
      have hnext := h.tiers.typed hplace ((entryBelow_succ huser').trans hchild)
      exact ih hnext fun hthree => absurd (h.tiers.low hplace) (by omega)
    · rfl

/-- A page that the processor finds is a held frame or one below the top table. -/
theorem hardwareWalk_page {phys : Nat} {flags : PageTableFlags} (h : s.Sound kernelPageTable kernelMem pool place)
    (hplace : place table = some (q,n + 1)) (huser : n = 3 → (tableIndex v 3).val < levelFourKernelEntriesStart)
    (hwalk : hardwareWalk s.memory.mem v n table outer = some (phys,flags)) :
    phys / pageSize ∈ s.held ∨ follow (entryBelow s.held s.memory.mem) (n + 1) table (indexPath v n) = some (phys / pageSize) := by
  induction n generalizing table outer with
  | zero =>
    rw [hardwareWalk] at hwalk
    split_ifs at hwalk with hpresent
    obtain ⟨rfl,-⟩ := Prod.mk.inj (Option.some.inj hwalk)
    have hframe : ((s.memory.mem table (tableIndex v 0)).addr * pageSize + v % pageSize) / pageSize =
        (s.memory.mem table (tableIndex v 0)).addr := by
      rw [pageSize]
      omega
    rw [hframe]
    by_cases hheld : (s.memory.mem table (tableIndex v 0)).addr ∈ s.held
    · exact .inl hheld
    · refine .inr ?_
      rw [indexPath,follow_cons (entryBelow_zero.mpr ⟨hpresent,hheld,rfl⟩),follow_nil]
  | succ n ih =>
    have huser' : n + 1 = 3 → (tableIndex v (n + 1)).val < levelFourKernelEntriesStart := fun hthree => by
      rw [hthree]
      exact huser hthree
    rw [hardwareWalk] at hwalk
    split_ifs at hwalk with hpresent hhuge
    · rcases h.used table q (n + 1) (tableIndex v (n + 1)) hplace huser' with hunused | ⟨-,hplain⟩
      · rw [hunused] at hpresent
        cases hpresent
      · exact absurd (hhuge.symm.trans (hplain (Nat.succ_ne_zero n))) (by decide)
    · have hchild : entryBelow s.held s.memory.mem (n + 1) table (tableIndex v (n + 1)) = some _ :=
        (entryBelow_succ huser').trans (child_eq_some.mpr ⟨hpresent,Bool.not_eq_true _ ▸ hhuge,rfl⟩)
      have hnext := h.tiers.typed hplace hchild
      refine (ih hnext (fun hthree => absurd (h.tiers.low hplace) (by omega)) hwalk).imp_right fun hfollow => ?_
      rw [indexPath,follow_cons hchild]
      exact hfollow

/-- A page is found through a present entry of a last table. -/
theorem hardwareWalk_last {m : Nat × PageTableFlags} (h : s.Sound kernelPageTable kernelMem pool place) (hplace : place table = some (q,n + 1))
    (huser : n = 3 → (tableIndex v 3).val < levelFourKernelEntriesStart) (hwalk : hardwareWalk s.memory.mem v n table outer = some m) :
    ∃ f, place f = some (q,1) ∧ (s.memory.mem f (tableIndex v 0)).flags.present = true := by
  induction n generalizing table outer with
  | zero =>
    rw [hardwareWalk] at hwalk
    split_ifs at hwalk with hpresent
    exact ⟨table,hplace,hpresent⟩
  | succ n ih =>
    have huser' : n + 1 = 3 → (tableIndex v (n + 1)).val < levelFourKernelEntriesStart := fun hthree => by
      rw [hthree]
      exact huser hthree
    rw [hardwareWalk] at hwalk
    split_ifs at hwalk with hpresent hhuge
    · rcases h.used table q (n + 1) (tableIndex v (n + 1)) hplace huser' with hunused | ⟨-,hplain⟩
      · rw [hunused] at hpresent
        cases hpresent
      · exact absurd (hhuge.symm.trans (hplain (Nat.succ_ne_zero n))) (by decide)
    · have hchild := child_eq_some.mpr ⟨hpresent,Bool.not_eq_true _ ▸ hhuge,rfl⟩
      exact ih (h.tiers.typed hplace ((entryBelow_succ huser').trans hchild))
        (fun hthree => absurd (h.tiers.low hplace) (by omega)) hwalk

/-- A present entry of a last table maps the page of its indices. -/
theorem hardwareWalk_of_follow {held : Finset Nat} {mem : TableStore} (hlen : path.length = n)
    (hpath : follow (entryBelow held mem) (n + 1) table path = some f) (hv : indexPath v n = path ++ [i])
    (hpresent : (mem f i).flags.present = true) : hardwareWalk mem v n table outer ≠ none := by
  induction path generalizing n table outer with
  | nil =>
    obtain rfl : n = 0 := hlen.symm
    rw [follow_nil] at hpath
    obtain rfl := Option.some.inj hpath
    obtain ⟨rfl,-⟩ := List.cons.inj hv
    rw [hardwareWalk,if_pos hpresent]
    exact Option.some_ne_none _
  | cons j path ih =>
    obtain ⟨n,rfl⟩ : ∃ m, n = m + 1 := ⟨path.length,hlen.symm⟩
    obtain ⟨hj,hrest⟩ := List.cons.inj hv
    obtain ⟨m,b,hm,hb,hpath⟩ := follow_cons_eq_some hpath
    obtain rfl := Nat.succ.inj hm
    rw [← hj] at hb
    obtain ⟨hthere,hhuge,rfl⟩ := child_eq_some.mp (entryBelow_succ_eq_some hb).1
    rw [hardwareWalk,if_pos hthere,if_neg (by rw [hhuge]; exact Bool.false_ne_true)]
    exact ih (Nat.succ.inj hlen) hpath hrest

/-- In the kernel half every address space is like the kernel's own. -/
theorem hardwareTranslate_kernel (h : s.Sound kernelPageTable kernelMem pool place) (hp : p ∈ s.tops)
    (hv : levelFourKernelEntriesStart ≤ (tableIndex v 3).val) :
    hardwareTranslate s.memory.mem p v = hardwareTranslate kernelMem kernelPageTable v := by
  rw [hardwareTranslate,hardwareTranslate]
  unfold hardwareWalk
  rw [h.half p hp _ hv]
  dsimp only
  split_ifs with hpresent hhuge
  · rfl
  · have hchild := child_eq_some.mpr ⟨hpresent,Bool.not_eq_true _ ▸ hhuge,rfl⟩
    refine hardwareWalk_congr fun path i rest b hpath hb => ?_
    refine congrFun (h.kernel b (.inr ⟨tableIndex v 3,path,hv,?_,(descend_cons hchild).trans hb⟩)).2 i
    have hlen := congrArg List.length hpath
    rw [List.length_append,List.length_cons] at hlen
    have hthree : (indexPath v 2).length = 3 := rfl
    omega
  · rfl

/-- The kernel's own half stays as it was. -/
theorem hardwareTranslate_own (h : s.Sound kernelPageTable kernelMem pool place) (hv : levelFourKernelEntriesStart ≤ (tableIndex v 3).val) :
    hardwareTranslate s.memory.mem kernelPageTable v = hardwareTranslate kernelMem kernelPageTable v := by
  refine hardwareWalk_congr fun path i rest b hpath hb => congrFun (h.kernel b ?_).2 i
  cases path with
  | nil =>
    cases hb
    exact .inl rfl
  | cons j path =>
    obtain ⟨rfl,hrest⟩ := List.cons.inj hpath
    have hlen : (path ++ i :: rest).length = (indexPath v 2).length := congrArg List.length hrest
    rw [List.length_append,List.length_cons] at hlen
    have hthree : (indexPath v 2).length = 3 := rfl
    exact .inr ⟨tableIndex v 3,path,hv,by omega,hb⟩

end Walks
end Spaces.Sound

/-- All indices belong to a page. -/
theorem exists_indexPath (a b c d : TableIndex) : ∃ v, indexPath v 3 = [a,b,c,d] := by
  refine ⟨a.val * 2^39 + b.val * 2^30 + c.val * 2^21 + d.val * 2^12,?_⟩
  simp only [indexPath,tableIndex,List.cons.injEq,Fin.ext_iff,and_true,Nat.reduceAdd,Nat.reduceMul,Nat.reducePow]
  have ha : a.val < 512 := a.isLt
  have hb : b.val < 512 := b.isLt
  have hc : c.val < 512 := c.isLt
  have hd : d.val < 512 := d.isLt
  refine ⟨?_,?_,?_,?_⟩ <;> omega

/-- The addresses of programs. -/
def UserAddress (v : Nat) : Prop := (tableIndex v 3).val < levelFourKernelEntriesStart

instance (v : Nat) : Decidable (UserAddress v) := inferInstanceAs (Decidable (_ < _))

namespace Spaces
variable {kernelPageTable : Nat} {s₀ s t : Spaces} {acts before : List SpaceAct} {pml4 p q v f : Nat} {place : Nat → Option (Nat × Nat)}

theorem Start.sound (h : s₀.Start kernelPageTable) :
    s₀.Sound kernelPageTable s₀.memory.mem (· ∈ s₀.unplaced) fun _ => none where
  tiers := ⟨nofun,nofun,nofun,nofun⟩
  tops f q := iff_of_false nofun fun hq => by
    rw [h.tops] at hq
    exact Finset.notMem_empty _ hq.2
  used _ _ _ _ hno := (Option.some_ne_none _ hno.symm).elim
  pooled _ := (or_iff_left (not_not.mpr rfl)).symm
  apart _ _ := rfl
  nodup := h.nodup
  kernel f hf := ⟨h.kernel f hf,rfl⟩
  half p hp := by
    rw [h.tops] at hp
    exact (Finset.notMem_empty _ hp).elim

/-- Every state that a run reaches is sound. -/
theorem run_sound (h : s₀.Start kernelPageTable) (hcareful : stepsMeet (step kernelPageTable) careful acts s₀)
    (hrun : steps (step kernelPageTable) acts s₀ = some s) :
    ∃ place, s.Sound kernelPageTable s₀.memory.mem (· ∈ s₀.unplaced) place :=
  steps_invariant (I := fun s => ∃ place, s.Sound kernelPageTable s₀.memory.mem (· ∈ s₀.unplaced) place)
    (fun _ _ _ hc ⟨_,hs⟩ hstep => (hs.step_sound hc hstep).imp fun _ h => h.1) hcareful ⟨_,h.sound⟩ hrun

/-- A page that a program can reach holds no table and is not free. It is a frame that the kernel holds, or it belongs to this
page of this address space alone. -/
theorem run_privatePages (h : s₀.Start kernelPageTable) (hcareful : stepsMeet (step kernelPageTable) careful acts s₀)
    (hrun : steps (step kernelPageTable) acts s₀ = some s) (hp : p ∈ s.tops) (hv : UserAddress v) {phys : Nat} {flags : PageTableFlags}
    (hmapped : hardwareTranslate s.memory.mem p v = some (phys,flags)) :
    ¬ s.IsTable (phys / pageSize) ∧ ¬ KernelTable s₀.memory.mem kernelPageTable (phys / pageSize) ∧
      phys / pageSize ∉ s.memory.allocator.available ∧
      (phys / pageSize ∈ s.held ∨ ∀ q w phys' flags', q ∈ s.tops → UserAddress w →
        hardwareTranslate s.memory.mem q w = some (phys',flags') → phys' / pageSize = phys / pageSize → q = p ∧ SamePage w v) := by
  obtain ⟨place,hs⟩ := run_sound h hcareful hrun
  rcases hs.hardwareWalk_page (hs.top_place hp) (fun _ => hv) hmapped with hheld | hpage
  · have hnone := hs.held_place hheld
    refine ⟨fun htable => ?_,fun hkernel => ?_,fun hfree => ?_,.inl hheld⟩
    · obtain ⟨n,q,hq⟩ := hs.table_place htable
      exact Option.some_ne_none _ (hq.symm.trans hnone)
    · exact (hs.kernel _ hkernel).1 ((hs.pooled _).mpr (.inl (Multiset.mem_add.mpr (.inr hheld))))
    · exact Multiset.disjoint_left.mp (Multiset.nodup_add.mp hs.nodup).2.2 hfree hheld
  · obtain ⟨m,hm,hplace⟩ := hs.tiers.follow_place (hs.top_place hp) hpage
    obtain rfl : m = 0 := by
      have hlen : (indexPath v 3).length = 4 := rfl
      omega
    refine ⟨fun htable => ?_,fun hkernel => ?_,fun hfree => ?_,.inr fun q w phys' flags' hq hw hmapped' hsame => ?_⟩
    · obtain ⟨n,q,hq⟩ := hs.table_place htable
      cases hplace.symm.trans hq
    · exact Option.some_ne_none _ (hplace.symm.trans (hs.kernel_place hkernel))
    · exact Option.some_ne_none _ (hplace.symm.trans (hs.apart _ (Multiset.mem_add.mpr (.inl hfree))))
    · rcases hs.hardwareWalk_page (hs.top_place hq) (fun _ => hw) hmapped' with hheld | hpage'
      · exact absurd (hsame ▸ hs.held_place hheld) (hplace ▸ Option.some_ne_none _)
      · exact hs.tiers.follow_inj (hs.top_place hq) (hs.top_place hp) hpage' (hsame ▸ hpage)

/-- The frames that an act hangs from an entry. -/
def hung : SpaceAct → List Nat
  | .link _ _ _ entry => [entry.addr]
  | _ => []

/-- It only makes address spaces and hangs frames. -/
def builds : SpaceAct → Bool
  | .create | .link .. => true
  | _ => false

/-- No other frames are in entries. -/
def Only (frames : List Nat) (s : Spaces) : Prop :=
  ∀ table i, (s.memory.mem table i).flags.present = true → (s.memory.mem table i).addr ∈ frames

theorem builds_only {a : SpaceAct} {frames : List Nat} (hbuilds : builds a = true) (honly : Only frames s)
    (hstep : step kernelPageTable a s = some t) : Only (hung a ++ frames) t := by
  cases a with
  | create =>
    obtain ⟨⟨pml4,memory⟩,hcreate,rfl⟩ := Option.map_eq_some_iff.mp hstep
    obtain ⟨⟨frame,allocator⟩,-,heq⟩ := Option.map_eq_some_iff.mp hcreate
    obtain ⟨-,rfl⟩ := Prod.mk.inj heq
    intro table i hpresent
    have hzero : ∀ f, PageTables.zeroFrame frame s.memory.mem f i = .unused ∨
        PageTables.zeroFrame frame s.memory.mem f i = s.memory.mem f i := fun f => by
      by_cases hf : f = frame
      · rw [hf,PageTables.zeroFrame,Function.update_self]
        exact .inl rfl
      · rw [PageTables.zeroFrame,Function.update_of_ne hf]
        exact .inr rfl
    have hentry : ∃ f, Function.update (PageTables.zeroFrame frame s.memory.mem) frame (fun i : TableIndex =>
        if levelFourKernelEntriesStart ≤ i.val then PageTables.zeroFrame frame s.memory.mem kernelPageTable i
        else PageTables.zeroFrame frame s.memory.mem frame i) table i = PageTables.zeroFrame frame s.memory.mem f i := by
      by_cases hf : table = frame
      · rw [hf,Function.update_self]
        split_ifs
        · exact ⟨kernelPageTable,rfl⟩
        · exact ⟨frame,rfl⟩
      · exact ⟨table,by rw [Function.update_of_ne hf]⟩
    obtain ⟨f,hf⟩ := hentry
    dsimp only at hpresent ⊢
    rw [hf] at hpresent ⊢
    rcases hzero f with hunused | hold
    · rw [hunused] at hpresent
      cases hpresent
    · rw [hold] at hpresent ⊢
      exact honly f i hpresent
  | link pml4 path i entry =>
    obtain ⟨table,ht,hstep⟩ := Option.bind_eq_some_iff.mp hstep
    split_ifs at hstep
    cases hstep
    intro f j hpresent
    by_cases hsame : f = table ∧ j = i
    · obtain ⟨rfl,rfl⟩ := hsame
      refine List.mem_append_left _ ?_
      rw [setEntry_mem,setEntry_self]
      exact List.mem_singleton_self _
    · rw [setEntry_mem,setEntry_of_ne (not_and_or.mp hsame)] at hpresent ⊢
      exact List.mem_append_right _ (honly f j hpresent)
  | _ => cases hbuilds

/-- Each frame is hung once. -/
theorem builds_careful {frames : List Nat} (hbuilds : ∀ a ∈ acts, builds a = true) (hnodup : (acts.flatMap hung ++ frames).Nodup)
    (honly : Only frames s) : stepsMeet (step kernelPageTable) careful acts s := by
  induction acts generalizing s frames with
  | nil => trivial
  | cons a acts ih =>
    obtain ⟨ha,hothers⟩ := List.forall_mem_cons.mp hbuilds
    rw [List.flatMap_cons,List.append_assoc] at hnodup
    refine ⟨?_,fun t hstep => ih hothers ?_ (builds_only ha honly hstep)⟩
    · cases a with
      | link pml4 path i entry =>
        rintro ⟨_,_,_,_,-,-,hpresent,haddr⟩
        have hmem := honly _ _ hpresent
        rw [haddr] at hmem
        exact List.disjoint_of_nodup_append hnodup (List.mem_singleton_self _) (List.mem_append_right _ hmem)
      | create => trivial
      | _ => cases ha
    · have hperm : (hung a ++ (acts.flatMap hung ++ frames)).Perm (acts.flatMap hung ++ (hung a ++ frames)) := by
        rw [← List.append_assoc,← List.append_assoc]
        exact List.perm_append_comm.append_right _
      exact hperm.nodup_iff.mp hnodup

/-- A kernel with one table of its own, and seven frames. -/
def booted : Spaces where
  memory := ⟨.ofEntries [(1,511,⟨2,⟨true,true,false,false⟩,false,0⟩)],⟨[10,20],[]⟩⟩
  tops := ∅
  held := {11,12,13,14,21}

theorem booted_start : booted.Start 1 := by
  refine ⟨rfl,by decide,fun f hf => ?_⟩
  have hfree : ∀ f ∈ booted.unplaced, 10 ≤ f := by decide
  have hentry : ∀ {a i b}, booted.memory.mem.child a i = some b → b = 2 := fun h => by
    obtain ⟨entry,hmem,-,rfl⟩ := ofEntries_child h
    obtain ⟨-,heq⟩ := Prod.mk.inj (List.mem_singleton.mp hmem)
    rw [(Prod.mk.inj heq).2]
  intro hmem
  have hlow := hfree f hmem
  rcases hf with rfl | ⟨i,path,-,-,hpath⟩
  · omega
  · obtain ⟨path,j,hlast⟩ : ∃ p j, i :: path = p ++ [j] := ⟨_,_,(List.dropLast_concat_getLast (List.cons_ne_nil i path)).symm⟩
    rw [hlast] at hpath
    obtain ⟨b,-,hb⟩ := descend_concat_eq_some hpath
    have htwo := hentry hb
    omega

/-- A page at the address 0x5000. -/
def onePage : List SpaceAct :=
  let user : PageTableFlags := ⟨true,true,true,false⟩
  [.create,.link 10 [] 0 ⟨11,user,false,0⟩,.link 10 [0] 0 ⟨12,user,false,0⟩,.link 10 [0,0] 0 ⟨13,user,false,0⟩,
    .link 10 [0,0,0] 5 ⟨14,user,false,0⟩]

/-- A second address space with a table. -/
def secondSpace : List SpaceAct := [.create,.link 20 [] 0 ⟨21,⟨true,true,true,false⟩,false,0⟩]

theorem booted_only : Only [2] booted := by
  intro table i hpresent
  rcases ofEntries_cases [(1,511,⟨2,⟨true,true,false,false⟩,false,0⟩)] table i with hunused | hmem
  · rw [show booted.memory.mem table i = .unused from hunused] at hpresent
    cases hpresent
  · obtain ⟨-,heq⟩ := Prod.mk.inj (List.mem_singleton.mp hmem)
    exact List.mem_singleton.mpr (congrArg TableEntry.addr (Prod.mk.inj heq).2)

theorem onePage_careful : stepsMeet (step 1) careful (onePage ++ secondSpace) booted :=
  builds_careful (by decide) (by decide) booted_only

theorem run_privatePages_first : ∃ s, steps (step 1) onePage booted = some s ∧ ¬ s.IsTable 14 ∧ 14 ∉ s.memory.allocator.available := by
  have hview : (steps (step 1) onePage booted).map (fun s => (decide (10 ∈ s.tops),hardwareTranslate s.memory.mem 10 0x5008)) =
      some (true,some (14 * 4096 + 8,⟨true,true,true,false⟩)) := by decide +kernel
  obtain ⟨s,hrun,hs⟩ := Option.map_eq_some_iff.mp hview
  obtain ⟨hlive,hmapped⟩ := Prod.mk.inj hs
  have hcareful := (stepsMeet_of_append onePage_careful).1
  have hpage := run_privatePages booted_start hcareful hrun (of_decide_eq_true hlive) (by decide : UserAddress 0x5008) hmapped
  exact ⟨s,hrun,hpage.1,hpage.2.2.1⟩

/-- What is done in other address spaces. -/
theorem Sound.run_kept {kernelMem : TableStore} {pool : Nat → Prop} (h : s.Sound kernelPageTable kernelMem pool place)
    (hcareful : stepsMeet (step kernelPageTable) careful acts s) (hrun : steps (step kernelPageTable) acts s = some t)
    (hacts : ∀ a ∈ acts, a.space ≠ some q) :
    ∃ place', t.Sound kernelPageTable kernelMem pool place' ∧ Kept q place place' s t := by
  induction acts generalizing s place with
  | nil =>
    cases hrun
    exact ⟨place,h,fun _ _ => id,fun _ _ _ => rfl⟩
  | cons a acts ih =>
    obtain ⟨u,hstep,hrest⟩ := steps_cons hrun
    obtain ⟨ha,hothers⟩ := List.forall_mem_cons.mp hacts
    obtain ⟨place₁,hsound,hkept⟩ := h.step_sound hcareful.1 hstep
    obtain ⟨place₂,hsound₂,hkept₂⟩ := ih hsound (hcareful.2 u hstep) hrest hothers
    have hfirst := hkept q ha
    exact ⟨place₂,hsound₂,fun f m hf => hkept₂.places f m (hfirst.places f m hf),
      fun f m hf => (hkept₂.memory f m (hfirst.places f m hf)).trans (hfirst.memory f m hf)⟩

/-- While other address spaces are made, changed, written to and freed, an address space translates as before, its own pages
keep what is in them, and its kernel half is the kernel's. -/
theorem run_untouched (h : s₀.Start kernelPageTable) (hbefore : stepsMeet (step kernelPageTable) careful before s₀)
    (hreach : steps (step kernelPageTable) before s₀ = some s) (hcareful : stepsMeet (step kernelPageTable) careful acts s)
    (hrun : steps (step kernelPageTable) acts s = some t) (hq : q ∈ s.tops) (hacts : ∀ a ∈ acts, a.space ≠ some q) :
    q ∈ t.tops ∧ (∀ v, hardwareTranslate t.memory.mem q v = hardwareTranslate s.memory.mem q v) ∧
      (∀ v, ¬ UserAddress v → hardwareTranslate t.memory.mem q v = hardwareTranslate s₀.memory.mem kernelPageTable v) ∧
      ∀ v phys flags, UserAddress v → hardwareTranslate s.memory.mem q v = some (phys,flags) → phys / pageSize ∉ s.held →
        t.memory.mem (phys / pageSize) = s.memory.mem (phys / pageSize) := by
  obtain ⟨place,hs⟩ := run_sound h hbefore hreach
  obtain ⟨place',ht,hkept⟩ := hs.run_kept hcareful hrun hacts
  have hplace := hs.top_place hq
  have hq' := ((ht.tops q q).mp (hkept.places q 4 hplace)).2
  refine ⟨hq',fun v => ?_,fun v hv => ht.hardwareTranslate_kernel hq' (Nat.le_of_not_lt hv),fun v phys flags hv hmapped hheld => ?_⟩
  · by_cases hv : UserAddress v
    · exact hs.hardwareWalk_eq hplace (fun _ => hv) fun f m => hkept.memory f (m + 1)
    · rw [ht.hardwareTranslate_kernel hq' (Nat.le_of_not_lt hv),hs.hardwareTranslate_kernel hq (Nat.le_of_not_lt hv)]
  · have hpage := (hs.hardwareWalk_page hplace (fun _ => hv) hmapped).resolve_left hheld
    obtain ⟨m,-,hm⟩ := hs.tiers.follow_place hplace hpage
    exact hkept.memory _ m hm

theorem run_untouched_second : ∃ s t, steps (step 1) onePage booted = some s ∧ steps (step 1) secondSpace s = some t ∧
    hardwareTranslate t.memory.mem 10 0x5008 = hardwareTranslate s.memory.mem 10 0x5008 := by
  have hview : ((steps (step 1) onePage booted).bind fun s => (steps (step 1) secondSpace s).map fun _ => decide (10 ∈ s.tops)) =
      some true := by decide +kernel
  obtain ⟨s,hreach,hs⟩ := Option.bind_eq_some_iff.mp hview
  obtain ⟨t,hrun,hlive⟩ := Option.map_eq_some_iff.mp hs
  have hcareful := stepsMeet_of_append onePage_careful
  have hkept := run_untouched booted_start hcareful.1 hreach (hcareful.2 s hreach) hrun (of_decide_eq_true hlive) (by decide)
  exact ⟨s,t,hreach,hrun,hkept.2.1 _⟩

/-- Every frame of the start is free, held, a table or mapped. None is free while it is anything else, and when no address
space is left, all are free or held again. -/
theorem run_accounted (h : s₀.Start kernelPageTable) (hcareful : stepsMeet (step kernelPageTable) careful acts s₀)
    (hrun : steps (step kernelPageTable) acts s₀ = some s) :
    (∀ f, f ∈ s₀.unplaced ↔ f ∈ s.memory.allocator.available ∨ f ∈ s.held ∨ s.IsTable f ∨ s.Maps f) ∧
      (∀ f ∈ s.memory.allocator.available, s.memory.allocator.available.count f = 1 ∧ f ∉ s.held ∧ ¬ s.IsTable f ∧ ¬ s.Maps f) ∧
      (s.tops = ∅ → s.unplaced = s₀.unplaced) := by
  obtain ⟨place,hs⟩ := run_sound h hcareful hrun
  have hplaced : ∀ f, f ∈ s₀.unplaced ↔ f ∈ s.unplaced ∨ place f ≠ none := hs.pooled
  refine ⟨fun f => ?_,fun f hf => ⟨?_,?_,fun htable => ?_,fun hmaps => hs.maps_not_free hmaps hf⟩,fun hnone => ?_⟩
  · rw [hplaced,unplaced,Multiset.mem_add,or_assoc]
    refine or_congr_right ⟨fun hf => hf.imp_right fun hne => ?_,fun hf => ?_⟩
    · obtain ⟨⟨q,n⟩,hplace⟩ := Option.ne_none_iff_exists'.mp hne
      exact hs.placed_use hplace
    · rcases hf with hheld | htable | hmaps
      · exact .inl hheld
      · obtain ⟨n,q,hq⟩ := hs.table_place htable
        exact .inr (hq ▸ Option.some_ne_none _)
      · obtain ⟨pml4,path,i,table,hlen,ht,hpresent,rfl⟩ := hmaps
        obtain ⟨n,hn,-,hplace,-⟩ := hs.tableAt_place ht
        obtain rfl : n = 0 := by omega
        refine (hs.page_place hplace hpresent).imp_right fun hpage => ?_
        rw [hpage]
        exact Option.some_ne_none _
  · exact Multiset.count_eq_one_of_mem (Multiset.nodup_add.mp hs.nodup).1 hf
  · exact Multiset.disjoint_left.mp (Multiset.nodup_add.mp hs.nodup).2.2 hf
  · obtain ⟨n,q,hq⟩ := hs.table_place htable
    exact Option.some_ne_none _ (hq.symm.trans (hs.apart f (Multiset.mem_add.mpr (.inl hf))))
  · refine (Multiset.Nodup.ext hs.nodup h.nodup).mpr fun f => ?_
    rw [hplaced,or_iff_left]
    intro hne
    obtain ⟨⟨q,n⟩,hplace⟩ := Option.ne_none_iff_exists'.mp hne
    exact Finset.notMem_empty q (hnone ▸ hs.place_top hplace)

theorem run_accounted_page : ∃ s, steps (step 1) onePage booted = some s ∧ (20 ∈ s.memory.allocator.available → ¬ s.Maps 20) := by
  have hview : (steps (step 1) onePage booted).isSome = true := by decide +kernel
  obtain ⟨s,hrun⟩ := Option.isSome_iff_exists.mp hview
  have hcareful := (stepsMeet_of_append onePage_careful).1
  exact ⟨s,hrun,fun hfree => ((run_accounted booted_start hcareful hrun).2.1 20 hfree).2.2.2⟩

/-- An address space can be freed exactly when the program can reach nothing any more: free_user_tables then passes its
assertion, and without the assertion it does the same. -/
theorem run_freed_iff (h : s₀.Start kernelPageTable) (hcareful : stepsMeet (step kernelPageTable) careful acts s₀)
    (hrun : steps (step kernelPageTable) acts s₀ = some s) (hp : p ∈ s.tops) :
    (∃ memory, PageTables.freeUserTables true p s.memory = .ok memory ∧ PageTables.freeUserTables false p s.memory = .ok memory) ↔
      ∀ v, UserAddress v → hardwareTranslate s.memory.mem p v = none := by
  obtain ⟨place,hs⟩ := run_sound h hcareful hrun
  have hboth : (∃ memory, PageTables.freeUserTables true p s.memory = .ok memory ∧
      PageTables.freeUserTables false p s.memory = .ok memory) ↔ ∃ memory, PageTables.freeUserTables true p s.memory = .ok memory :=
    exists_congr fun _ => and_iff_left_of_imp freeUserTables_release
  rw [hboth,freeUserTables_total hs hp]
  refine ⟨fun hunused v hv => ?_,fun hnone f hf i => ?_⟩
  · cases hwalk : hardwareTranslate s.memory.mem p v with
    | none => rfl
    | some m =>
      obtain ⟨f,hf,hpresent⟩ := hs.hardwareWalk_last (hs.top_place hp) (fun _ => hv) hwalk
      rw [hunused f hf] at hpresent
      cases hpresent
  · refine (hs.used f p 0 i hf fun hno => absurd hno (by decide)).resolve_right fun ⟨hpresent,_⟩ => ?_
    obtain ⟨a,path,ha,hlen,hpath⟩ := hs.tiers.exists_root hf
    obtain rfl : a = p := ((hs.tops a p).mp ha).1
    have hlen' : path.length = 3 := by omega
    obtain ⟨j,k,l,rfl⟩ := List.length_eq_three.mp hlen'
    obtain ⟨v,hv⟩ := exists_indexPath j k l i
    refine Sound.hardwareWalk_of_follow (n := 3) hlen' hpath (hv : indexPath v 3 = [j,k,l] ++ [i]) hpresent (hnone v ?_)
    obtain ⟨m,b,hm,hb,-⟩ := follow_cons_eq_some hpath
    obtain rfl : m = 3 := by omega
    obtain ⟨hj,-⟩ := List.cons.inj hv
    rw [UserAddress,hj]
    exact (entryBelow_succ_eq_some hb).2 rfl

/-- The page at 0x5000 is still mapped. -/
theorem run_freed_iff_page : ∃ s, steps (step 1) onePage booted = some s ∧
    ¬ ∃ memory, PageTables.freeUserTables true 10 s.memory = .ok memory ∧ PageTables.freeUserTables false 10 s.memory = .ok memory := by
  have hview : (steps (step 1) onePage booted).map (fun s => (decide (10 ∈ s.tops),(hardwareTranslate s.memory.mem 10 0x5008).isSome)) =
      some (true,true) := by decide +kernel
  obtain ⟨s,hrun,hs⟩ := Option.map_eq_some_iff.mp hview
  obtain ⟨hlive,hmapped⟩ := Prod.mk.inj hs
  have hcareful := (stepsMeet_of_append onePage_careful).1
  refine ⟨s,hrun,fun hfree => ?_⟩
  have hnone := (run_freed_iff booted_start hcareful hrun (of_decide_eq_true hlive)).mp hfree 0x5008 (by decide)
  rw [hnone] at hmapped
  cases hmapped

/-- The kernel translates a program's address as the processor does for the program, and an address of its own half, for which
it walks its own tables, as the processor does whatever address space is active. -/
theorem run_translated (h : s₀.Start kernelPageTable) (hcareful : stepsMeet (step kernelPageTable) careful acts s₀)
    (hrun : steps (step kernelPageTable) acts s₀ = some s) (hp : p ∈ s.tops) :
    (∀ v, UserAddress v → PageTables.translateUserVirtToPhys s.memory.mem p v = (hardwareTranslate s.memory.mem p v).map Prod.fst) ∧
      (SoundTables s₀.memory.mem kernelPageTable → ∀ v, ¬ UserAddress v → ¬ InGib s₀.memory.mem kernelPageTable v →
        PageTables.translateUserVirtToPhys s.memory.mem kernelPageTable v = (hardwareTranslate s.memory.mem p v).map Prod.fst) := by
  obtain ⟨place,hs⟩ := run_sound h hcareful hrun
  constructor
  · intro v hv
    have hplace := hs.top_place hp
    have hplain : ∀ b n i, place b = some (p,n + 1) → n ≠ 0 → (n = 3 → i.val < levelFourKernelEntriesStart) →
        (s.memory.mem b i).hugePage = false := by
      intro b n i hb hn hi
      rcases hs.used b p n i hb hi with hunused | ⟨-,hhuge⟩
      · rw [hunused]
        rfl
      · exact hhuge hn
    have hdown : ∀ {b c n}, place b = some (p,n + 2) → (n + 1 = 3 → (tableIndex v (n + 1)).val < levelFourKernelEntriesStart) →
        s.memory.mem.child b (tableIndex v (n + 1)) = some c → place c = some (p,n + 1) := fun hb hi hc =>
      hs.tiers.typed hb ((entryBelow_succ hi).trans hc)
    refine translateUserVirtToPhys_eq (hplain p 3 _ hplace (by decide) fun _ => hv) (fun b hb => ?_) fun b c hb hc hhuge => ?_
    · exact hplain b 2 _ (hdown hplace (fun _ => hv) hb) (by decide) fun hno => absurd hno (by decide)
    · have hlevel := hplain c 1 (tableIndex v 1) (hdown (hdown hplace (fun _ => hv) hb) (fun hno => absurd hno (by decide)) hc)
        (by decide) fun hno => absurd hno (by decide)
      exact absurd (hhuge.symm.trans hlevel) (by decide)
  · intro htables v hv hgib
    have hkernel : levelFourKernelEntriesStart ≤ (tableIndex v 3).val := Nat.le_of_not_lt hv
    have hroot := (hs.kernel kernelPageTable (.inl rfl)).2
    have hchild : s.memory.mem.child kernelPageTable = s₀.memory.mem.child kernelPageTable := by
      funext i
      rw [TableStore.child,TableStore.child,hroot]
    have hbelow : ∀ b, s₀.memory.mem.child kernelPageTable (tableIndex v 3) = some b → s.memory.mem b = s₀.memory.mem b := fun b hb =>
      (hs.kernel b (.inr ⟨tableIndex v 3,[],hkernel,Nat.zero_le 2,descend_cons hb⟩)).2
    rw [hs.hardwareTranslate_kernel hp hkernel,← hs.hardwareTranslate_own hkernel]
    refine translateUserVirtToPhys_eq ?_ (fun b hb => ?_) fun b c hb hc hhuge => ?_
    · rw [hroot]
      exact htables.top _
    · rw [hchild] at hb
      rw [hbelow b hb]
      by_contra hhuge
      exact hgib ⟨b,hb,Bool.not_eq_false _ ▸ hhuge⟩
    · rw [hchild] at hb
      have hc₀ : s₀.memory.mem.child b (tableIndex v 2) = some c := by
        rw [TableStore.child,hbelow b hb] at hc
        exact hc
      have hpath : descend s₀.memory.mem.child kernelPageTable [tableIndex v 3,tableIndex v 2] = some c :=
        (descend_cons hb).trans (descend_cons hc₀)
      have hsame := (hs.kernel c (.inr ⟨tableIndex v 3,[tableIndex v 2],hkernel,by simp,hpath⟩)).2
      rw [hsame] at hhuge ⊢
      exact htables.aligned _ c _ rfl hpath hhuge

theorem run_translated_page : ∃ s, steps (step 1) onePage booted = some s ∧
    PageTables.translateUserVirtToPhys s.memory.mem 10 0x5008 = (hardwareTranslate s.memory.mem 10 0x5008).map Prod.fst := by
  have hview : (steps (step 1) onePage booted).map (fun s => decide (10 ∈ s.tops)) = some true := by decide +kernel
  obtain ⟨s,hrun,hlive⟩ := Option.map_eq_some_iff.mp hview
  have hcareful := (stepsMeet_of_append onePage_careful).1
  exact ⟨s,hrun,(run_translated booted_start hcareful hrun (of_decide_eq_true hlive)).1 0x5008 (by decide)⟩

end Spaces
end MofuOS.Memory
