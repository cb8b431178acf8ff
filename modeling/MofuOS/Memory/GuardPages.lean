import MofuOS.Memory.PageTables
import MofuOS.Process.Task

/-! The guard pages below the kernel stacks, as stack_guard.rs takes them out of the page tables. -/
namespace MofuOS.Memory
open Lib

namespace PageTables

/-- The small pages of a page of 2 MiB, but for the guard page. -/
def splitTable (hugeEntry : TableEntry) (ptIdx : TableIndex) : TableIndex → TableEntry := fun i =>
  if i = ptIdx then .unused else ⟨hugeEntry.addr + i,{ hugeEntry.flags with present := true },false,hugeEntry.others⟩

def unmapGuardPage (pml4 vaddr : Nat) (s : TableMemory) : Except String Unit × TableMemory :=
  let p4Entry := s.mem pml4 (tableIndex vaddr 3)
  if p4Entry = .unused then (.error "p4 entry unused",s)
  else
    let pdptEntry := s.mem p4Entry.addr (tableIndex vaddr 2)
    if pdptEntry = .unused then (.error "pdpt entry unused",s)
    else if pdptEntry.hugePage then (.error "pdpt huge page not supported for guard",s)
    else
      let pdEntry := s.mem pdptEntry.addr (tableIndex vaddr 1)
      if pdEntry = .unused then (.error "pd entry unused",s)
      else if pdEntry.hugePage then
        match s.allocator.allocateFrame with
        | none => (.error "out of frames for PT split",s)
        | some (pt,allocator) =>
          let mem : TableStore := Function.update s.mem pt (splitTable pdEntry (tableIndex vaddr 0))
          (.ok (),⟨mem.setEntry pdptEntry.addr (tableIndex vaddr 1) ⟨pt,{ present := true, writable := true },false,0⟩,allocator⟩)
      else if s.mem pdEntry.addr (tableIndex vaddr 0) = .unused then
        (.error "pt entry already unused (guard already unmapped?)",s)
      else (.ok (),{ s with mem := s.mem.setEntry pdEntry.addr (tableIndex vaddr 0) .unused })

/-- ensure_guard_unmapped for one page after the other, and which of them it has unmapped. -/
def ensureGuardsUnmapped (pml4 : Nat) : List Nat → TableMemory → List Bool × TableMemory
  | [],s => ([],s)
  | vaddr :: guards,s =>
    let result := unmapGuardPage pml4 vaddr s
    let rest := ensureGuardsUnmapped pml4 guards result.2
    (result.1.isOk :: rest.1,rest.2)

/-- The guard pages of all stacks, given where those of each kind are. -/
def installGuardPages (pml4 : Nat) (rsp0 ist0 scheduler : Process.Core → Nat) (task : Process.Slot → Nat) :
    TableMemory → List Bool × TableMemory :=
  ensureGuardsUnmapped pml4 ((List.finRange Process.maxCores).flatMap (fun core => [rsp0 core,ist0 core,scheduler core]) ++
    (List.finRange Process.maxTasks).map task)

end PageTables

/-- The tables are sound and none of the free frames is one of them. -/
structure SoundMemory (s : TableMemory) (pml4 : Nat) : Prop extends SoundTables s.mem pml4 where
  fresh : ∀ f ∈ s.allocator.available, ∀ p, p.length ≤ 3 → descend s.mem.child pml4 p ≠ some f
  nodup : s.allocator.available.Nodup

/-- The page has kept its place and what the kernel may do with it. -/
structure KeptAccess (old new : Nat × PageTableFlags) : Prop where
  address : new.1 = old.1
  writable : new.2.writable = old.2.writable
  noExecute : new.2.noExecute = old.2.noExecute
  user : new.2.userAccessible = true → old.2.userAccessible = true

/-- What unmapping one guard page does. -/
structure GuardStep (pml4 vaddr : Nat) (s t : TableMemory) : Prop where
  sound : SoundMemory t pml4
  upper : ∀ p b i, p.length ≤ 1 → descend s.mem.child pml4 p = some b → t.mem b i = s.mem b i
  frames : t.allocator.available ≤ s.allocator.available
  kept : ∀ v, ¬ SamePage v vaddr → Option.Rel KeptAccess (hardwareTranslate s.mem pml4 v) (hardwareTranslate t.mem pml4 v)
  guarded : ∀ v, SamePage v vaddr →
    hardwareTranslate t.mem pml4 v = none ∨ InGib t.mem pml4 v ∨ t.allocator.available = 0

section Steps
variable {mem mem' : TableStore} {s t : TableMemory} {pml4 pdpt pd pt vaddr v level table b : Nat} {outer : PageTableFlags}
  {i : TableIndex} {result : Except String Unit} {log : List Bool}

theorem KeptAccess.refl (m : Nat × PageTableFlags) : KeptAccess m m := ⟨rfl,rfl,rfl,id⟩

theorem KeptAccess.rel_refl (m : Option (Nat × PageTableFlags)) : Option.Rel KeptAccess m m := by
  cases m with
  | none => exact .none
  | some m => exact .some (.refl m)

theorem KeptAccess.trans {l m n : Nat × PageTableFlags} (h : KeptAccess l m) (h' : KeptAccess m n) : KeptAccess l n :=
  ⟨h'.address.trans h.address,h'.writable.trans h.writable,h'.noExecute.trans h.noExecute,h.user ∘ h'.user⟩

theorem hardwareWalk_child (h : mem.child table (tableIndex vaddr (level + 1)) = some b) :
    hardwareWalk mem vaddr (level + 1) table outer =
      hardwareWalk mem vaddr level b (outer.restrict (mem table (tableIndex vaddr (level + 1))).flags) := by
  obtain ⟨hpresent,hhuge,rfl⟩ := child_eq_some.mp h
  rw [hardwareWalk,if_pos hpresent,if_neg (by rw [hhuge]; exact Bool.false_ne_true)]

theorem walk_two (h₃ : mem.child pml4 (tableIndex v 3) = some pdpt) (h₂ : mem.child pdpt (tableIndex v 2) = some pd) :
    hardwareTranslate mem pml4 v = hardwareWalk mem v 1 pd
      ((anything.restrict (mem pml4 (tableIndex v 3)).flags).restrict (mem pdpt (tableIndex v 2)).flags) := by
  rw [hardwareTranslate,hardwareWalk_child h₃,hardwareWalk_child h₂]

theorem walk_clear (h₃ : mem.child pml4 (tableIndex v 3) = some pdpt) (h₂ : mem.child pdpt (tableIndex v 2) = some pd)
    (h₁ : mem.child pd (tableIndex v 1) = some pt) (h₀ : mem pt (tableIndex v 0) = .unused) : hardwareTranslate mem pml4 v = none := by
  rw [walk_two h₃ h₂,hardwareWalk_child h₁,hardwareWalk,h₀]
  rfl

theorem indexPath_three (v : Nat) : indexPath v 3 = [tableIndex v 3,tableIndex v 2,tableIndex v 1,tableIndex v 0] := rfl

theorem indexPath_before {p rest : List TableIndex} (h : p ++ i :: rest = indexPath v 3) : p.length ≤ 3 := by
  have hlen := congrArg List.length h
  rw [indexPath_three,List.length_append] at hlen
  simp only [List.length_cons,List.length_nil] at hlen
  omega

theorem samePage_iff : SamePage v vaddr ↔ tableIndex v 3 = tableIndex vaddr 3 ∧ tableIndex v 2 = tableIndex vaddr 2 ∧
    tableIndex v 1 = tableIndex vaddr 1 ∧ tableIndex v 0 = tableIndex vaddr 0 := by
  rw [SamePage,indexPath_three,indexPath_three]
  simp only [List.cons.injEq,and_true]

/-- An address in the same page is mapped where this one is. -/
theorem hardwareWalk_eq_none (h : indexPath v level = indexPath vaddr level) (hnone : hardwareWalk mem vaddr level table outer = none) :
    hardwareWalk mem v level table outer = none := by
  induction level generalizing table outer with
  | zero =>
    obtain ⟨hi,-⟩ := List.cons.inj h
    rw [hardwareWalk] at hnone ⊢
    rw [hi]
    split_ifs at hnone ⊢
    rfl
  | succ level ih =>
    obtain ⟨hi,hrest⟩ := List.cons.inj h
    rw [hardwareWalk] at hnone ⊢
    rw [hi]
    split_ifs at hnone ⊢
    · exact ih hrest hnone
    · rfl

/-- unmap_guard_page does nothing, clears an entry of a last table, or splits a page. It does nothing where nothing is
mapped, in pages of 1 GiB, and when the frames have run out. -/
theorem unmapGuardPage_cases (hs : SoundTables s.mem pml4) (h : PageTables.unmapGuardPage pml4 vaddr s = (result,t)) :
    (t = s ∧ (hardwareTranslate s.mem pml4 vaddr = none ∨ InGib s.mem pml4 vaddr ∨ s.allocator.available = 0)) ∨
      (∃ pdpt pd, s.mem.child pml4 (tableIndex vaddr 3) = some pdpt ∧ s.mem.child pdpt (tableIndex vaddr 2) = some pd ∧
        ((∃ pt, s.mem.child pd (tableIndex vaddr 1) = some pt ∧ t = { s with mem := s.mem.setEntry pt (tableIndex vaddr 0) .unused }) ∨
          (s.mem pd (tableIndex vaddr 1)).flags.present = true ∧ (s.mem pd (tableIndex vaddr 1)).hugePage = true ∧
          ∃ pt allocator, s.allocator.allocateFrame = some (pt,allocator) ∧ t = ⟨TableStore.setEntry
            (Function.update s.mem pt (PageTables.splitTable (s.mem pd (tableIndex vaddr 1)) (tableIndex vaddr 0))) pd
            (tableIndex vaddr 1) ⟨pt,{ present := true, writable := true },false,0⟩,allocator⟩)) := by
  rw [PageTables.unmapGuardPage] at h
  dsimp only at h
  by_cases h₃ : s.mem pml4 (tableIndex vaddr 3) = .unused
  · rw [if_pos h₃] at h
    cases h
    refine .inl ⟨rfl,.inl ?_⟩
    rw [hardwareTranslate,hardwareWalk,h₃]
    rfl
  rw [if_neg h₃] at h
  have hp₃ := (hs.used [] pml4 (tableIndex vaddr 3) (by decide) rfl).resolve_left h₃
  have hc₃ := child_eq_some.mpr ⟨hp₃,hs.top (tableIndex vaddr 3),rfl⟩
  generalize (s.mem pml4 (tableIndex vaddr 3)).addr = pdpt at h hc₃
  by_cases h₂ : s.mem pdpt (tableIndex vaddr 2) = .unused
  · rw [if_pos h₂] at h
    cases h
    refine .inl ⟨rfl,.inl ?_⟩
    rw [hardwareTranslate,hardwareWalk_child hc₃,hardwareWalk,h₂]
    rfl
  rw [if_neg h₂] at h
  have hp₂ := (hs.used [_] pdpt (tableIndex vaddr 2) (by simp) (descend_cons hc₃)).resolve_left h₂
  cases hh₂ : (s.mem pdpt (tableIndex vaddr 2)).hugePage with
  | true =>
    rw [hh₂,if_pos rfl] at h
    cases h
    exact .inl ⟨rfl,.inr (.inl ⟨pdpt,hc₃,hh₂⟩)⟩
  | false =>
    rw [hh₂,if_neg Bool.false_ne_true] at h
    have hc₂ := child_eq_some.mpr ⟨hp₂,hh₂,rfl⟩
    generalize (s.mem pdpt (tableIndex vaddr 2)).addr = pd at h hc₂
    by_cases h₁ : s.mem pd (tableIndex vaddr 1) = .unused
    · rw [if_pos h₁] at h
      cases h
      refine .inl ⟨rfl,.inl ?_⟩
      rw [walk_two hc₃ hc₂,hardwareWalk,h₁]
      rfl
    rw [if_neg h₁] at h
    have hp₁ := (hs.used [_,_] pd (tableIndex vaddr 1) (by simp) ((descend_cons hc₃).trans (descend_cons hc₂))).resolve_left h₁
    cases hh₁ : (s.mem pd (tableIndex vaddr 1)).hugePage with
    | true =>
      rw [hh₁,if_pos rfl] at h
      cases halloc : s.allocator.allocateFrame with
      | none =>
        rw [halloc] at h
        cases h
        exact .inl ⟨rfl,.inr (.inr (MemoryMapFrameAllocator.allocateFrame_eq_none.mp halloc))⟩
      | some x =>
        obtain ⟨pt,allocator⟩ := x
        rw [halloc] at h
        cases h
        exact .inr ⟨pdpt,pd,hc₃,hc₂,.inr ⟨hp₁,hh₁,pt,allocator,rfl,rfl⟩⟩
    | false =>
      rw [hh₁,if_neg Bool.false_ne_true] at h
      have hc₁ := child_eq_some.mpr ⟨hp₁,hh₁,rfl⟩
      split_ifs at h with h₀
      · cases h
        exact .inl ⟨rfl,.inl (walk_clear hc₃ hc₂ hc₁ h₀)⟩
      · cases h
        exact .inr ⟨pdpt,pd,hc₃,hc₂,.inl ⟨_,hc₁,rfl⟩⟩

/-- The entry of one small page is cleared. -/
theorem clear_spec (hs : SoundMemory s pml4) (h₃ : s.mem.child pml4 (tableIndex vaddr 3) = some pdpt)
    (h₂ : s.mem.child pdpt (tableIndex vaddr 2) = some pd) (h₁ : s.mem.child pd (tableIndex vaddr 1) = some pt)
    (ht : t = { s with mem := s.mem.setEntry pt (tableIndex vaddr 0) .unused }) : GuardStep pml4 vaddr s t := by
  have hpt : descend s.mem.child pml4 [tableIndex vaddr 3,tableIndex vaddr 2,tableIndex vaddr 1] = some pt :=
    (descend_cons h₃).trans ((descend_cons h₂).trans (descend_cons h₁))
  -- the table is the last one on its way
  have hlast : ∀ p b, p.length ≤ 2 → descend s.mem.child pml4 p = some b → b ≠ pt := by
    rintro p b hp hb rfl
    have hlen := congrArg List.length (hs.unshared p _ b (Nat.le_succ_of_le hp) (by simp) hb hpt)
    simp only [List.length_cons,List.length_nil] at hlen
    omega
  have hmem : ∀ p b i, p.length ≤ 2 → descend s.mem.child pml4 p = some b → t.mem b i = s.mem b i := fun p b i hp hb => by
    rw [ht]
    exact setEntry_of_ne (.inl (hlast p b hp hb))
  have hchild : ∀ p b i, p.length ≤ 2 → descend s.mem.child pml4 p = some b → t.mem.child b i = s.mem.child b i :=
    fun p b i hp hb => by rw [TableStore.child,TableStore.child,hmem p b i hp hb]
  obtain ⟨hunshared,hdescend⟩ := hs.unshared.congr fun p b i hp hb => hchild p b i (Nat.le_of_lt_succ hp) hb
  have halloc : t.allocator = s.allocator := by rw [ht]
  refine ⟨⟨⟨hunshared,fun p b i hp hb => ?_,fun i => ?_,fun p b i hp hb => ?_⟩,?_,halloc ▸ hs.nodup⟩,
    fun p b i hp => hmem p b i (Nat.le_succ_of_le hp),halloc ▸ le_rfl,fun v hsame => ?_,fun v hsame => .inl ?_⟩
  · rw [hdescend p (Nat.le_succ_of_le hp)] at hb
    rw [hmem p b i hp hb]
    exact hs.used p b i hp hb
  · rw [hmem [] pml4 i (by simp) rfl]
    exact hs.top i
  · rw [hdescend p (by omega)] at hb
    rw [hmem p b i hp.le hb]
    exact hs.aligned p b i hp hb
  · rw [halloc]
    intro f hf p hp
    rw [hdescend p hp]
    exact hs.fresh f hf p hp
  · have hwalk : hardwareTranslate t.mem pml4 v = hardwareTranslate s.mem pml4 v := by
      refine hardwareWalk_congr fun p i rest b hp hb => ?_
      rw [ht]
      refine setEntry_of_ne ?_
      by_contra hno
      rw [not_or,not_not,not_not] at hno
      obtain ⟨rfl,rfl⟩ := hno
      obtain rfl := hs.unshared p _ b (indexPath_before hp) (by simp) hb hpt
      rw [indexPath_three] at hp
      simp only [List.cons_append,List.nil_append,List.cons.injEq] at hp
      obtain ⟨e₃,e₂,e₁,e₀,-⟩ := hp
      exact hsame (by rw [SamePage,indexPath_three,indexPath_three,← e₃,← e₂,← e₁,← e₀])
    rw [hwalk]
    exact KeptAccess.rel_refl _
  · obtain ⟨e₃,e₂,e₁,e₀⟩ := samePage_iff.mp hsame
    have c₃ : t.mem.child pml4 (tableIndex v 3) = some pdpt := by
      rw [hchild [] pml4 _ (by simp) rfl,e₃]
      exact h₃
    have c₂ : t.mem.child pdpt (tableIndex v 2) = some pd := by
      rw [hchild [_] pdpt _ (by simp) (descend_cons h₃),e₂]
      exact h₂
    have c₁ : t.mem.child pd (tableIndex v 1) = some pt := by
      rw [hchild [_,_] pd _ (by simp) ((descend_cons h₃).trans (descend_cons h₂)),e₁]
      exact h₁
    refine walk_clear c₃ c₂ c₁ ?_
    rw [ht,e₀]
    exact setEntry_self

/-- Where a page of 2 MiB is split, its parts are where they were. -/
theorem splitTable_address (vaddr : Nat) {addr k : Nat} (h : addr = 512 * k) :
    (addr + (tableIndex vaddr 0).val) * pageSize + vaddr % pageSize =
      addr * pageSize / spanOf 1 * spanOf 1 + vaddr % spanOf 1 := by
  have hspan : spanOf 1 = 2097152 := rfl
  have hidx : (tableIndex vaddr 0).val = vaddr / 4096 % 512 := rfl
  have hbase : addr * pageSize / spanOf 1 * spanOf 1 = addr * pageSize := by
    rw [h,hspan,pageSize]
    omega
  rw [hbase,hidx,hspan,pageSize]
  omega

/-- A page of 2 MiB is split, and one of its parts is left out. -/
theorem split_spec (hs : SoundMemory s pml4) (h₃ : s.mem.child pml4 (tableIndex vaddr 3) = some pdpt)
    (h₂ : s.mem.child pdpt (tableIndex vaddr 2) = some pd) (hpresent : (s.mem pd (tableIndex vaddr 1)).flags.present = true)
    (hhuge : (s.mem pd (tableIndex vaddr 1)).hugePage = true) {allocator : MemoryMapFrameAllocator Nat}
    (halloc : s.allocator.allocateFrame = some (pt,allocator)) (ht : t = ⟨TableStore.setEntry
      (Function.update s.mem pt (PageTables.splitTable (s.mem pd (tableIndex vaddr 1)) (tableIndex vaddr 0))) pd
      (tableIndex vaddr 1) ⟨pt,{ present := true, writable := true },false,0⟩,allocator⟩) : GuardStep pml4 vaddr s t := by
  have hpd : descend s.mem.child pml4 [tableIndex vaddr 3,tableIndex vaddr 2] = some pd :=
    (descend_cons h₃).trans (descend_cons h₂)
  have havail := MemoryMapFrameAllocator.available_of_allocateFrame halloc
  have hnodup := hs.nodup
  rw [havail,Multiset.nodup_cons] at hnodup
  have hfresh : ∀ q, q.length ≤ 3 → descend s.mem.child pml4 q ≠ some pt :=
    hs.fresh pt (havail ▸ Multiset.mem_cons_self pt _)
  have hentry : t.mem pd (tableIndex vaddr 1) = ⟨pt,{ present := true, writable := true },false,0⟩ := by
    rw [ht]
    exact setEntry_self
  have hnew : t.mem pt = PageTables.splitTable (s.mem pd (tableIndex vaddr 1)) (tableIndex vaddr 0) := by
    funext j
    rw [ht]
    have hne : pt ≠ pd := fun heq => hfresh _ (by simp) (heq ▸ hpd)
    exact (setEntry_of_ne (.inl hne)).trans (congrFun (Function.update_self ..) j)
  have hother : ∀ p b j, p.length ≤ 3 → descend s.mem.child pml4 p = some b → b ≠ pd ∨ j ≠ tableIndex vaddr 1 →
      t.mem b j = s.mem b j := by
    intro p b j hp hb hne
    rw [ht]
    have hpt : b ≠ pt := fun heq => hfresh p hp (heq ▸ hb)
    exact (setEntry_of_ne hne).trans (congrFun (Function.update_of_ne hpt ..) j)
  have hchild : ∀ p b j, p.length < 3 → descend s.mem.child pml4 p = some b → b ≠ pd ∨ j ≠ tableIndex vaddr 1 →
      t.mem.child b j = s.mem.child b j := fun p b j hp hb hne => by
    rw [TableStore.child,TableStore.child,hother p b j hp.le hb hne]
  have hc₁ : t.mem.child pd (tableIndex vaddr 1) = some pt := by
    rw [child_eq_some,hentry]
    exact ⟨rfl,rfl,rfl⟩
  have hroot : pml4 ≠ pd := fun heq => by
    have hpath := hs.unshared [] _ pd (by simp) (by simp) (congrArg some heq) hpd
    cases hpath
  obtain ⟨hunshared,hlong,hdescend⟩ := hs.unshared.extend hpd rfl hc₁ hfresh hchild
  have hshort : ∀ p, p.length ≤ 2 → descend t.mem.child pml4 p = descend s.mem.child pml4 p := fun p hp =>
    hdescend p (Nat.le_succ_of_le hp) fun heq => by
      have hlen := congrArg List.length heq
      simp only [List.length_append,List.length_cons,List.length_nil] at hlen
      omega
  have hpdpt : pdpt ≠ pd := fun heq => by
    have hpath := hs.unshared [_] _ pd (by simp) (by simp) ((descend_cons h₃).trans (congrArg some heq)) hpd
    cases hpath
  have hdown : ∀ v, tableIndex v 3 = tableIndex vaddr 3 → tableIndex v 2 = tableIndex vaddr 2 → tableIndex v 1 = tableIndex vaddr 1 →
      t.mem.child pml4 (tableIndex v 3) = some pdpt ∧ t.mem.child pdpt (tableIndex v 2) = some pd ∧
        t.mem.child pd (tableIndex v 1) = some pt := by
    intro v e₃ e₂ e₁
    rw [e₃,e₂,e₁,hchild [] pml4 _ (by simp) rfl (.inl hroot),hchild [_] pdpt _ (by simp) (descend_cons h₃) (.inl hpdpt)]
    exact ⟨h₃,h₂,hc₁⟩
  refine ⟨⟨⟨hunshared,fun p b j hp hb => ?_,fun j => ?_,fun p b j hp hb hbig => ?_⟩,?_,?_⟩,fun p b j hp hb => ?_,?_,
    fun v hsame => ?_,fun v hsame => .inl ?_⟩
  · rw [hshort p hp] at hb
    by_cases hno : b = pd ∧ j = tableIndex vaddr 1
    · rw [hno.1,hno.2,hentry]
      exact .inr rfl
    · rw [hother p b j (Nat.le_succ_of_le hp) hb (not_and_or.mp hno)]
      exact hs.used p b j hp hb
  · rw [hother [] pml4 j (by simp) rfl (.inl hroot)]
    exact hs.top j
  · rw [hshort p hp.le] at hb
    by_cases hno : b = pd ∧ j = tableIndex vaddr 1
    · rw [hno.1,hno.2,hentry] at hbig
      cases hbig
    · rw [hother p b j (by omega) hb (not_and_or.mp hno)] at hbig ⊢
      exact hs.aligned p b j hp hb hbig
  · intro f hf p hp hdesc
    have hf : f ∈ allocator.available := by
      rw [ht] at hf
      exact hf
    by_cases hpath : p = [tableIndex vaddr 3,tableIndex vaddr 2] ++ [tableIndex vaddr 1]
    · rw [hpath,hlong] at hdesc
      exact hnodup.1 (Option.some.inj hdesc ▸ hf)
    · rw [hdescend p hp hpath] at hdesc
      exact hs.fresh f (havail ▸ Multiset.mem_cons_of_mem hf) p hp hdesc
  · rw [ht]
    exact hnodup.2
  · refine hother p b j (by omega) hb (.inl ?_)
    rintro rfl
    have hlen := congrArg List.length (hs.unshared p _ b (by omega) (by simp) hb hpd)
    simp only [List.length_cons,List.length_nil] at hlen
    omega
  · rw [ht]
    exact havail ▸ Multiset.le_cons_self _ pt
  · by_cases hregion : tableIndex v 3 = tableIndex vaddr 3 ∧ tableIndex v 2 = tableIndex vaddr 2 ∧ tableIndex v 1 = tableIndex vaddr 1
    · obtain ⟨e₃,e₂,e₁⟩ := hregion
      have hpart : tableIndex v 0 ≠ tableIndex vaddr 0 := fun e₀ => hsame (samePage_iff.mpr ⟨e₃,e₂,e₁,e₀⟩)
      obtain ⟨k,hk⟩ := hs.aligned _ pd _ rfl hpd hhuge
      have hold := walk_two (e₃.symm ▸ h₃ : s.mem.child pml4 (tableIndex v 3) = some pdpt)
        (e₂.symm ▸ h₂ : s.mem.child pdpt (tableIndex v 2) = some pd)
      obtain ⟨c₃,c₂,c₁⟩ := hdown v e₃ e₂ e₁
      rw [hold,walk_two c₃ c₂,hardwareWalk_child c₁,hardwareWalk,hardwareWalk,hnew,PageTables.splitTable,if_neg hpart,e₁,hentry,
        if_pos hpresent,if_pos hhuge,hother [] pml4 _ (by simp) rfl (.inl hroot),
        hother [_] pdpt _ (by simp) (descend_cons h₃) (.inl hpdpt)]
      refine .some ⟨splitTable_address v hk,?_,?_,fun hno => ?_⟩
      · simp [PageTableFlags.restrict]
      · simp [PageTableFlags.restrict]
      · simp [PageTableFlags.restrict] at hno
    · have hwalk : hardwareTranslate t.mem pml4 v = hardwareTranslate s.mem pml4 v := by
        refine hardwareWalk_congr fun p i rest b hp hb => hother p b i (indexPath_before hp) hb ?_
        by_contra hno
        rw [not_or,not_not,not_not] at hno
        obtain ⟨rfl,rfl⟩ := hno
        obtain rfl := hs.unshared p _ b (indexPath_before hp) (by simp) hb hpd
        rw [indexPath_three] at hp
        simp only [List.cons_append,List.nil_append,List.cons.injEq] at hp
        exact hregion ⟨hp.1.symm,hp.2.1.symm,hp.2.2.1.symm⟩
      rw [hwalk]
      exact KeptAccess.rel_refl _
  · obtain ⟨e₃,e₂,e₁,e₀⟩ := samePage_iff.mp hsame
    obtain ⟨c₃,c₂,c₁⟩ := hdown v e₃ e₂ e₁
    refine walk_clear c₃ c₂ c₁ ?_
    rw [hnew,PageTables.splitTable,if_pos e₀]

theorem unmapGuardPage_step (hs : SoundMemory s pml4) (h : PageTables.unmapGuardPage pml4 vaddr s = (result,t)) :
    GuardStep pml4 vaddr s t := by
  rcases unmapGuardPage_cases hs.toSoundTables h with ⟨rfl,hwhy⟩ | ⟨pdpt,pd,h₃,h₂,⟨pt,h₁,ht⟩ | ⟨hp,hh,pt,allocator,ha,ht⟩⟩
  · refine ⟨hs,fun _ _ _ _ _ => rfl,le_rfl,fun v _ => KeptAccess.rel_refl _,fun v hsame => ?_⟩
    obtain ⟨e₃,e₂,-⟩ := samePage_iff.mp hsame
    rcases hwhy with hnone | ⟨pdpt,hpdpt,hhuge⟩ | hempty
    · exact .inl (hardwareWalk_eq_none hsame hnone)
    · exact .inr (.inl ⟨pdpt,e₃ ▸ hpdpt,e₂ ▸ hhuge⟩)
    · exact .inr (.inr hempty)
  · exact clear_spec hs h₃ h₂ h₁ ht
  · exact split_spec hs h₃ h₂ hp hh ha ht

/-- What one step has taken out, or could not, stays so. -/
theorem GuardStep.lasting (h : GuardStep pml4 vaddr s t) {v : Nat}
    (hv : hardwareTranslate s.mem pml4 v = none ∨ InGib s.mem pml4 v ∨ s.allocator.available = 0) :
    hardwareTranslate t.mem pml4 v = none ∨ InGib t.mem pml4 v ∨ t.allocator.available = 0 := by
  by_cases hsame : SamePage v vaddr
  · exact h.guarded v hsame
  · rcases hv with hnone | ⟨pdpt,hpdpt,hhuge⟩ | hempty
    · have hkept := h.kept v hsame
      rw [hnone] at hkept
      generalize hardwareTranslate t.mem pml4 v = m at hkept
      cases hkept
      exact .inl rfl
    · refine .inr (.inl ⟨pdpt,?_,?_⟩)
      · rw [TableStore.child,h.upper [] pml4 _ (by simp) rfl]
        exact hpdpt
      · rw [h.upper [_] pdpt _ (by simp) (descend_cons hpdpt)]
        exact hhuge
    · exact .inr (.inr (Multiset.le_zero.mp (hempty ▸ h.frames)))

theorem relKept_trans {l m n : Option (Nat × PageTableFlags)} (h : Option.Rel KeptAccess l m) (h' : Option.Rel KeptAccess m n) :
    Option.Rel KeptAccess l n := by
  cases h with
  | none => exact h'
  | some h =>
    cases h' with
    | some h' => exact .some (h.trans h')

/-- Whatever pages are taken out in whatever order, the tables stay sound, every page taken out is unmapped, and any other
page is where it was, with what the kernel may do there. A page stays only if it is part of one of 1 GiB, or when the frames
for splitting have run out. -/
theorem ensureGuardsUnmapped_spec (hs : SoundMemory s pml4) (guards : List Nat) :
    SoundMemory (PageTables.ensureGuardsUnmapped pml4 guards s).2 pml4 ∧
      (∀ v, (∀ g ∈ guards, ¬ SamePage v g) → Option.Rel KeptAccess (hardwareTranslate s.mem pml4 v)
        (hardwareTranslate (PageTables.ensureGuardsUnmapped pml4 guards s).2.mem pml4 v)) ∧
      ∀ v, (hardwareTranslate s.mem pml4 v = none ∨ InGib s.mem pml4 v ∨ s.allocator.available = 0) ∨ (∃ g ∈ guards, SamePage v g) →
        hardwareTranslate (PageTables.ensureGuardsUnmapped pml4 guards s).2.mem pml4 v = none ∨
          InGib (PageTables.ensureGuardsUnmapped pml4 guards s).2.mem pml4 v ∨
          (PageTables.ensureGuardsUnmapped pml4 guards s).2.allocator.available = 0 := by
  induction guards generalizing s with
  | nil => exact ⟨hs,fun v _ => KeptAccess.rel_refl _,fun v hv => hv.resolve_right fun ⟨g,hg,_⟩ => (List.not_mem_nil hg).elim⟩
  | cons vaddr guards ih =>
    have hstep : GuardStep pml4 vaddr s (PageTables.unmapGuardPage pml4 vaddr s).2 := unmapGuardPage_step hs rfl
    rw [PageTables.ensureGuardsUnmapped]
    obtain ⟨hsound,hkept,hgone⟩ := ih hstep.sound
    refine ⟨hsound,fun v hv => ?_,fun v hv => hgone v ?_⟩
    · obtain ⟨hhead,hrest⟩ := List.forall_mem_cons.mp hv
      exact relKept_trans (hstep.kept v hhead) (hkept v hrest)
    · rcases hv with hv | ⟨g,hg,hsame⟩
      · exact .inl (hstep.lasting hv)
      · rcases List.mem_cons.mp hg with rfl | hg
        · exact .inl (hstep.guarded v hsame)
        · exact .inr ⟨g,hg,hsame⟩

/-- install_guard_pages takes the guard page of every stack out of the tables, leaves every other page alone, and keeps the
tables sound. -/
theorem installGuardPages_spec (hs : SoundMemory s pml4) {rsp0 ist0 scheduler : Process.Core → Nat} {task : Process.Slot → Nat}
    (h : PageTables.installGuardPages pml4 rsp0 ist0 scheduler task s = (log,t)) :
    SoundMemory t pml4 ∧ (∀ v, (∀ core, ¬ SamePage v (rsp0 core) ∧ ¬ SamePage v (ist0 core) ∧ ¬ SamePage v (scheduler core)) →
      (∀ slot, ¬ SamePage v (task slot)) → Option.Rel KeptAccess (hardwareTranslate s.mem pml4 v) (hardwareTranslate t.mem pml4 v)) ∧
      ∀ v, ((∃ core, SamePage v (rsp0 core) ∨ SamePage v (ist0 core) ∨ SamePage v (scheduler core)) ∨ ∃ slot, SamePage v (task slot)) →
        hardwareTranslate t.mem pml4 v = none ∨ InGib t.mem pml4 v ∨ t.allocator.available = 0 := by
  obtain ⟨hsound,hkept,hgone⟩ := ensureGuardsUnmapped_spec hs ((List.finRange Process.maxCores).flatMap (fun core =>
    [rsp0 core,ist0 core,scheduler core]) ++ (List.finRange Process.maxTasks).map task)
  rw [PageTables.installGuardPages] at h
  rw [h] at hsound hkept hgone
  refine ⟨hsound,fun v hcores hslots => hkept v fun g hg => ?_,fun v hv => hgone v (.inr ?_)⟩
  · rcases List.mem_append.mp hg with hg | hg
    · obtain ⟨core,-,hg⟩ := List.mem_flatMap.mp hg
      obtain ⟨h₁,h₂,h₃⟩ := hcores core
      rcases List.mem_cons.mp hg with rfl | hg
      · exact h₁
      · rcases List.mem_cons.mp hg with rfl | hg
        · exact h₂
        · exact List.mem_singleton.mp hg ▸ h₃
    · obtain ⟨slot,-,rfl⟩ := List.mem_map.mp hg
      exact hslots slot
  · rcases hv with ⟨core,hv⟩ | ⟨slot,hv⟩
    · have hmem : ∀ g ∈ [rsp0 core,ist0 core,scheduler core], g ∈ (List.finRange Process.maxCores).flatMap (fun core =>
          [rsp0 core,ist0 core,scheduler core]) ++ (List.finRange Process.maxTasks).map task := fun g hg =>
        List.mem_append_left _ (List.mem_flatMap.mpr ⟨core,List.mem_finRange core,hg⟩)
      rcases hv with hv | hv | hv
      · exact ⟨_,hmem _ List.mem_cons_self,hv⟩
      · exact ⟨_,hmem _ (List.mem_cons_of_mem _ List.mem_cons_self),hv⟩
      · exact ⟨_,hmem _ (List.mem_cons_of_mem _ (List.mem_cons_of_mem _ List.mem_cons_self)),hv⟩
    · exact ⟨_,List.mem_append_right _ (List.mem_map.mpr ⟨slot,List.mem_finRange slot,rfl⟩),hv⟩

/-- A page of 2 MiB beside a small page, both for stacks. -/
def stackEntries : List (Nat × TableIndex × TableEntry) :=
  [(1,⟨511,by decide⟩,⟨2,⟨true,true,false,false⟩,false,0⟩),(2,⟨510,by decide⟩,⟨3,⟨true,true,false,false⟩,false,0⟩),
    (3,⟨0,by decide⟩,⟨1024,⟨true,true,false,true⟩,true,0⟩),(3,⟨1,by decide⟩,⟨4,⟨true,true,false,false⟩,false,0⟩),
    (4,⟨7,by decide⟩,⟨2048,⟨true,true,false,true⟩,false,0⟩)]

def stackMemory : TableMemory := ⟨.ofEntries stackEntries,⟨[5],[6]⟩⟩

theorem stackMemory_sound : SoundMemory stackMemory 1 := by
  refine ⟨soundTables_ofEntries (fun b => if b = 2 then some (1,511) else if b = 3 then some (2,510) else
    if b = 4 then some (3,1) else if b = 2048 then some (4,7) else none) (by decide) (by decide) (by decide) (by decide) (by decide),?_,by decide⟩
  intro f hf p _ hp
  have hfree : f = 5 ∨ f = 6 := by simpa [stackMemory,MemoryMapFrameAllocator.available] using hf
  have haddr : ∀ e ∈ stackEntries, e.2.2.addr ≠ 5 ∧ e.2.2.addr ≠ 6 := by decide
  induction p using List.reverseRecOn with
  | nil =>
    cases hp
    omega
  | append_singleton p i =>
    obtain ⟨b,-,hb⟩ := descend_concat_eq_some hp
    obtain ⟨entry,hmem,-,hentry⟩ := ofEntries_child hb
    have hne : entry.addr ≠ 5 ∧ entry.addr ≠ 6 := haddr _ hmem
    omega

def guardsOfStacks : TableMemory → List Bool × TableMemory :=
  PageTables.installGuardPages 1 (fun _ => 0xFFFFFFFF80003000) (fun _ => 0xFFFFFFFF80207000) (fun _ => 0xFFFFFFFF80003000)
    (fun _ => 0xFFFFFFFF80207000)

/-- The guards are one part of the large page and the small page. The next part of the large page is where it was. -/
theorem installGuardPages_split : SoundMemory (guardsOfStacks stackMemory).2 1 ∧
    Option.Rel KeptAccess (hardwareTranslate stackMemory.mem 1 0xFFFFFFFF80004000)
      (hardwareTranslate (guardsOfStacks stackMemory).2.mem 1 0xFFFFFFFF80004000) := by
  have hspec := installGuardPages_spec stackMemory_sound (Prod.mk.eta (p := guardsOfStacks stackMemory)).symm
  exact ⟨hspec.1,hspec.2.1 _ (by decide) (by decide)⟩

end Steps
end MofuOS.Memory
