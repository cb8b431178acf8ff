import Mathlib.Data.Finset.Basic
import MofuOS.Lib.Tiers
import MofuOS.Lib.Steps
import MofuOS.Memory.PageTables

/-! Address spaces that share the kernel half of their top tables, and what happens to their tables and frames: usermem.rs
makes and frees them, and map_to, update_flags and unmap change one entry after the other. -/
namespace MofuOS.Memory
open Lib

def levelFourKernelEntriesStart : Nat := 256

namespace PageTables

def zeroFrame (frame : Nat) (mem : TableStore) : TableStore := Function.update mem frame fun _ => .unused

def allocateNewAddressSpace (kernelPageTable : Nat) (s : TableMemory) : Option (Nat × TableMemory) :=
  s.allocator.allocateFrame.map fun (pml4,allocator) =>
    let mem := zeroFrame pml4 s.mem
    let half := fun i : TableIndex => if levelFourKernelEntriesStart ≤ i.val then mem kernelPageTable i else mem pml4 i
    (pml4,⟨Function.update mem pml4 half,allocator⟩)

/-- The body of a loop of free_user_tables: what is below an entry goes first. -/
def freeEntry (below : Nat → TableMemory → Except Nat TableMemory) (table : Nat) (s : TableMemory) (i : TableIndex) :
    Except Nat TableMemory :=
  if TableStore.isTableEntry (s.mem table i) = true then
    match below (s.mem table i).addr s with
    | .error panic => .error panic
    | .ok s => .ok ⟨s.mem.setEntry table i .unused,s.allocator.deallocateFrame (s.mem table i).addr⟩
  else .ok s

/-- The loop over the tables below one of a level. In a debug build it ends with the address of a last table that still maps
a page. -/
def freeTables (checks : Bool) : Nat → Nat → TableMemory → Except Nat TableMemory
  | 0,pt,s => if checks = true ∧ ∃ i, s.mem pt i ≠ .unused then .error (pt * pageSize) else .ok s
  | level + 1,table,s => (List.finRange entriesPerTable).foldlM (freeEntry (freeTables checks level) table) s

def freeUserTables (checks : Bool) (pml4 : Nat) (s : TableMemory) : Except Nat TableMemory :=
  ((List.finRange entriesPerTable).take levelFourKernelEntriesStart).foldlM (freeEntry (freeTables checks 2) pml4) s

def freePml4Frame (pml4 : Nat) (s : TableMemory) : TableMemory := { s with allocator := s.allocator.deallocateFrame pml4 }

end PageTables

structure Spaces where
  memory : TableMemory
  /-- The top tables of the address spaces. -/
  tops : Finset Nat
  /-- The frames that the kernel holds outside the tables. It may map them for programs. -/
  held : Finset Nat

/-- What hangs from an entry of a table in the user half: a table, or a page whose frame the kernel does not hold. -/
def entryBelow (held : Finset Nat) (mem : TableStore) (level table : Nat) (i : TableIndex) : Option Nat :=
  if level = 0 then if (mem table i).flags.present = true ∧ (mem table i).addr ∉ held then some (mem table i).addr else none
  else if level = 3 ∧ levelFourKernelEntriesStart ≤ i.val then none
  else mem.child table i

inductive SpaceAct where
  /-- allocate_new_address_space -/
  | create
  /-- allocate_frame -/
  | hold
  /-- deallocate_frame -/
  | release (frame : Nat)
  /-- Something is written to a held frame. -/
  | fill (frame : Nat) (contents : TableIndex → TableEntry)
  /-- A program writes to a page that it has mapped. -/
  | store (pml4 : Nat) (path : List TableIndex) (i : TableIndex) (contents : TableIndex → TableEntry)
  /-- An unused entry gets a held frame, as a table or as a page of its own. -/
  | link (pml4 : Nat) (path : List TableIndex) (i : TableIndex) (entry : TableEntry)
  /-- An unused entry of a last table gets a frame that the kernel goes on holding. -/
  | share (pml4 : Nat) (path : List TableIndex) (i : TableIndex) (entry : TableEntry)
  /-- Other flags for an entry. -/
  | allow (pml4 : Nat) (path : List TableIndex) (i : TableIndex) (flags : PageTableFlags)
  /-- A page is unmapped. Its frame goes to the caller. -/
  | unmap (pml4 : Nat) (path : List TableIndex) (i : TableIndex)
  /-- free_user_tables and free_pml4_frame -/
  | free (pml4 : Nat)

/-- The address space that is changed. -/
def SpaceAct.space : SpaceAct → Option Nat
  | .create | .hold | .release _ | .fill _ _ => none
  | .store pml4 _ _ _ | .link pml4 _ _ _ | .share pml4 _ _ _ | .allow pml4 _ _ _ | .unmap pml4 _ _ | .free pml4 => some pml4

namespace Spaces

/-- The table that the indices lead to, if the entry there belongs to the user half. -/
def tableAt (s : Spaces) (pml4 : Nat) (path : List TableIndex) (i : TableIndex) : Option Nat :=
  if pml4 ∈ s.tops ∧ path.length ≤ 3 ∧ (path = [] → i.val < levelFourKernelEntriesStart) then
    follow (entryBelow s.held s.memory.mem) 4 pml4 path
  else none

def setEntry (s : Spaces) (table : Nat) (i : TableIndex) (entry : TableEntry) : Spaces :=
  { s with memory := { s.memory with mem := s.memory.mem.setEntry table i entry } }

def step (kernelPageTable : Nat) : SpaceAct → Spaces → Option Spaces
  | .create,s => (PageTables.allocateNewAddressSpace kernelPageTable s.memory).map fun (pml4,memory) =>
    { s with memory, tops := insert pml4 s.tops }
  | .hold,s => s.memory.allocator.allocateFrame.map fun (frame,allocator) =>
    { s with memory := { s.memory with allocator }, held := insert frame s.held }
  | .release frame,s => if frame ∈ s.held then
      some { s with memory := { s.memory with allocator := s.memory.allocator.deallocateFrame frame }, held := s.held.erase frame }
    else none
  | .fill frame contents,s => if frame ∈ s.held then
      some { s with memory := { s.memory with mem := Function.update s.memory.mem frame contents } }
    else none
  | .store pml4 path i contents,s => (s.tableAt pml4 path i).bind fun table =>
    if path.length = 3 ∧ (s.memory.mem table i).flags.present = true then
      some { s with memory := { s.memory with mem := Function.update s.memory.mem (s.memory.mem table i).addr contents } }
    else none
  | .link pml4 path i entry,s => (s.tableAt pml4 path i).bind fun table =>
    if s.memory.mem table i = .unused ∧ entry.flags.present = true ∧ entry.hugePage = false ∧ entry.addr ∈ s.held ∧
        (path.length < 3 → ∀ j, s.memory.mem entry.addr j = .unused) then
      some { s.setEntry table i entry with held := s.held.erase entry.addr }
    else none
  | .share pml4 path i entry,s => (s.tableAt pml4 path i).bind fun table =>
    if path.length = 3 ∧ s.memory.mem table i = .unused ∧ entry.flags.present = true ∧ entry.addr ∈ s.held then
      some (s.setEntry table i entry)
    else none
  | .allow pml4 path i flags,s => (s.tableAt pml4 path i).bind fun table =>
    if (s.memory.mem table i).flags.present = true ∧ flags.present = true then
      some (s.setEntry table i { s.memory.mem table i with flags })
    else none
  | .unmap pml4 path i,s => (s.tableAt pml4 path i).bind fun table =>
    if path.length = 3 ∧ (s.memory.mem table i).flags.present = true then
      some { s.setEntry table i .unused with held := insert (s.memory.mem table i).addr s.held }
    else none
  | .free pml4,s => if pml4 ∈ s.tops then
      match PageTables.freeUserTables true pml4 s.memory with
      | .error _ => none
      | .ok memory => some { s with memory := PageTables.freePml4Frame pml4 memory, tops := s.tops.erase pml4 }
    else none

@[simp] theorem setEntry_mem (s : Spaces) (table : Nat) (i : TableIndex) (entry : TableEntry) :
    (s.setEntry table i entry).memory.mem = s.memory.mem.setEntry table i entry := rfl

/-- The frames that are in no tree. -/
def unplaced (s : Spaces) : Multiset Nat := s.memory.allocator.available + s.held.val

/-- Some page of some address space is the frame. -/
def Maps (s : Spaces) (frame : Nat) : Prop :=
  ∃ pml4 path i table, path.length = 3 ∧ s.tableAt pml4 path i = some table ∧
    (s.memory.mem table i).flags.present = true ∧ (s.memory.mem table i).addr = frame

/-- A frame that the kernel gives away is not mapped for a program any more. -/
def careful : SpaceAct → Spaces → Prop
  | .release frame,s => ¬ s.Maps frame
  | .link _ _ _ entry,s => ¬ s.Maps entry.addr
  | _,_ => True

/-- The frame holds a table of an address space. -/
def IsTable (s : Spaces) (frame : Nat) : Prop :=
  ∃ pml4 ∈ s.tops, ∃ path, path.length ≤ 3 ∧ follow (entryBelow s.held s.memory.mem) 4 pml4 path = some frame

end Spaces

/-- The kernel's own top table, and the tables that its half of it leads to. -/
def KernelTable (mem : TableStore) (kernelPageTable frame : Nat) : Prop :=
  frame = kernelPageTable ∨ ∃ i path, levelFourKernelEntriesStart ≤ i.val ∧ path.length ≤ 2 ∧
    descend mem.child kernelPageTable (i :: path) = some frame

/-- Before the first address space is made. -/
structure Spaces.Start (kernelPageTable : Nat) (s : Spaces) : Prop where
  tops : s.tops = ∅
  nodup : s.unplaced.Nodup
  kernel : ∀ f, KernelTable s.memory.mem kernelPageTable f → f ∉ s.unplaced

/-- An entry of a level as it stands in the user half. -/
def UserEntry (level : Nat) (entry : TableEntry) : Prop :=
  entry = .unused ∨ entry.flags.present = true ∧ (level ≠ 0 → entry.hugePage = false)

/-- Who has which frame: each of the pool is free, held or in one place below one top table. The kernel's tables are left
alone, and every top table leads to them. -/
structure Spaces.Sound (kernelPageTable : Nat) (kernelMem : TableStore) (pool : Nat → Prop) (place : Nat → Option (Nat × Nat))
    (s : Spaces) : Prop where
  tiers : Tiers (entryBelow s.held s.memory.mem) 4 place
  tops : ∀ f q, place f = some (q,4) ↔ f = q ∧ q ∈ s.tops
  used : ∀ f q n i, place f = some (q,n + 1) → (n = 3 → i.val < levelFourKernelEntriesStart) → UserEntry n (s.memory.mem f i)
  pooled : ∀ f, pool f ↔ f ∈ s.unplaced ∨ place f ≠ none
  apart : ∀ f ∈ s.unplaced, place f = none
  nodup : s.unplaced.Nodup
  kernel : ∀ f, KernelTable kernelMem kernelPageTable f → ¬ pool f ∧ s.memory.mem f = kernelMem f
  half : ∀ p ∈ s.tops, ∀ i : TableIndex, levelFourKernelEntriesStart ≤ i.val → s.memory.mem p i = kernelMem kernelPageTable i

section Entries
variable {held : Finset Nat} {mem mem' : TableStore} {level table f n : Nat} {i : TableIndex}

theorem entryBelow_congr (h : mem' table i = mem table i) : entryBelow held mem' level table i = entryBelow held mem level table i := by
  rw [entryBelow,entryBelow,TableStore.child,TableStore.child,h]

theorem entryBelow_unused (h : mem table i = .unused) : entryBelow held mem level table i = none := by
  rw [entryBelow,TableStore.child,h]
  simp [TableEntry.unused,TableStore.isTableEntry]

theorem entryBelow_zero : entryBelow held mem 0 table i = some f ↔
    (mem table i).flags.present = true ∧ (mem table i).addr ∉ held ∧ (mem table i).addr = f := by
  rw [entryBelow,if_pos rfl]
  by_cases h : (mem table i).flags.present = true ∧ (mem table i).addr ∉ held
  · rw [if_pos h,Option.some.injEq]
    exact ⟨fun heq => ⟨h.1,h.2,heq⟩,fun heq => heq.2.2⟩
  · rw [if_neg h]
    exact ⟨fun heq => absurd heq.symm (Option.some_ne_none _),fun heq => absurd ⟨heq.1,heq.2.1⟩ h⟩

theorem entryBelow_succ (huser : level + 1 = 3 → i.val < levelFourKernelEntriesStart) :
    entryBelow held mem (level + 1) table i = mem.child table i := by
  rw [entryBelow,if_neg (Nat.succ_ne_zero level),if_neg fun h => absurd (huser h.1) (Nat.not_lt.mpr h.2)]

theorem entryBelow_succ_eq_some (h : entryBelow held mem (level + 1) table i = some f) :
    mem.child table i = some f ∧ (level + 1 = 3 → i.val < levelFourKernelEntriesStart) := by
  rw [entryBelow,if_neg (Nat.succ_ne_zero level)] at h
  split_ifs at h with hkernel
  exact ⟨h,fun hl => Nat.lt_of_not_le fun hle => hkernel ⟨hl,hle⟩⟩

/-- Which frames are held matters for entries of last tables only. -/
theorem entryBelow_held {held' : Finset Nat} (h : level = 0 → (mem table i).flags.present = true →
    ((mem table i).addr ∈ held' ↔ (mem table i).addr ∈ held)) :
    entryBelow held' mem level table i = entryBelow held mem level table i := by
  rw [entryBelow,entryBelow]
  split_ifs with hzero h₁ h₂ h₂
  · rfl
  · exact absurd ⟨h₁.1,fun hmem => h₁.2 ((h hzero h₁.1).mpr hmem)⟩ h₂
  · exact absurd ⟨h₂.1,fun hmem => h₂.2 ((h hzero h₂.1).mp hmem)⟩ h₁
  · rfl
  · rfl
  · rfl

end Entries

namespace Spaces.Sound
variable {kernelPageTable : Nat} {kernelMem mem' : TableStore} {pool : Nat → Prop} {place : Nat → Option (Nat × Nat)} {s : Spaces}
  {pml4 p q f table n m : Nat} {path : List TableIndex} {i j : TableIndex}

theorem kernel_place (h : s.Sound kernelPageTable kernelMem pool place) (hf : KernelTable kernelMem kernelPageTable f) :
    place f = none := by
  by_contra hne
  exact (h.kernel f hf).1 ((h.pooled f).mpr (.inr hne))

theorem top_place (h : s.Sound kernelPageTable kernelMem pool place) (hp : p ∈ s.tops) : place p = some (p,4) :=
  (h.tops p p).mpr ⟨rfl,hp⟩

/-- Every place is in an address space that there is. -/
theorem place_top (h : s.Sound kernelPageTable kernelMem pool place) (hf : place f = some (q,n)) : q ∈ s.tops := by
  obtain ⟨a,path,ha,-,-⟩ := h.tiers.exists_root hf
  exact ((h.tops a q).mp ha).2

theorem tableAt_place (h : s.Sound kernelPageTable kernelMem pool place) (ht : s.tableAt pml4 path i = some table) :
    ∃ n, n + path.length = 3 ∧ pml4 ∈ s.tops ∧ place table = some (pml4,n + 1) ∧ (n = 3 → i.val < levelFourKernelEntriesStart) := by
  rw [tableAt] at ht
  split_ifs at ht with hguard
  obtain ⟨hlive,hlen,huser⟩ := hguard
  obtain ⟨m,hm,hplace⟩ := h.tiers.follow_place (h.top_place hlive) ht
  obtain ⟨n,rfl⟩ : ∃ n, m = n + 1 := ⟨m - 1,by omega⟩
  exact ⟨n,by omega,hlive,hplace,fun hn => huser (List.eq_nil_of_length_eq_zero (by omega))⟩

/-- The last tables are where the indices lead. -/
theorem maps_of_entry (h : s.Sound kernelPageTable kernelMem pool place) (hplace : place table = some (q,1))
    (hpresent : (s.memory.mem table i).flags.present = true) : s.Maps (s.memory.mem table i).addr := by
  obtain ⟨a,path,ha,hlen,hpath⟩ := h.tiers.exists_root hplace
  have hlen : path.length = 3 := by omega
  obtain ⟨rfl,hlive⟩ := (h.tops a q).mp ha
  refine ⟨a,path,i,table,hlen,?_,hpresent,rfl⟩
  rw [tableAt,if_pos ⟨hlive,hlen.le,fun hnil => by rw [hnil] at hlen; cases hlen⟩]
  exact hpath

/-- No program maps a free frame. -/
theorem not_free (h : s.Sound kernelPageTable kernelMem pool place) (hplace : place table = some (q,1))
    (hpresent : (s.memory.mem table i).flags.present = true) : (s.memory.mem table i).addr ∉ s.memory.allocator.available := by
  intro hmem
  have hheld : (s.memory.mem table i).addr ∉ s.held := Multiset.disjoint_left.mp (Multiset.nodup_add.mp h.nodup).2.2 hmem
  have hnone := h.apart _ (Multiset.mem_add.mpr (.inl hmem))
  exact Option.some_ne_none _ ((h.tiers.typed hplace (entryBelow_zero.mpr ⟨hpresent,hheld,rfl⟩)).symm.trans hnone)

/-- The memory changes in no table. -/
theorem of_tables (h : s.Sound kernelPageTable kernelMem pool place)
    (hmem : ∀ f, (∃ q m, place f = some (q,m + 1)) ∨ KernelTable kernelMem kernelPageTable f → mem' f = s.memory.mem f) :
    ({ s with memory := { s.memory with mem := mem' } } : Spaces).Sound kernelPageTable kernelMem pool place where
  tiers := h.tiers.congr fun f j q m hf => entryBelow_congr (congrFun (hmem f (.inl ⟨q,m,hf⟩)) j)
  tops := h.tops
  used f q m j hf hj := by
    show UserEntry m (mem' f j)
    rw [hmem f (.inl ⟨q,m,hf⟩)]
    exact h.used f q m j hf hj
  pooled := h.pooled
  apart := h.apart
  nodup := h.nodup
  kernel f hf := ⟨(h.kernel f hf).1,(hmem f (.inr hf)).trans (h.kernel f hf).2⟩
  half p hp j hj := (congrFun (hmem p (.inl ⟨p,3,h.top_place hp⟩)) j).trans (h.half p hp j hj)

/-- One entry of a table in a tree changes, and with it at most what hangs from it. -/
theorem of_entry {t : Spaces} {place' : Nat → Option (Nat × Nat)} (h : s.Sound kernelPageTable kernelMem pool place)
    (hplace : place table = some (q,n + 1)) (huser : n = 3 → i.val < levelFourKernelEntriesStart)
    (hmem : ∀ f j, (∃ r m, place f = some (r,m + 1)) ∨ KernelTable kernelMem kernelPageTable f → f ≠ table ∨ j ≠ i →
      t.memory.mem f j = s.memory.mem f j)
    (hentry : UserEntry n (t.memory.mem table i)) (htops : t.tops = s.tops)
    (htiers : Tiers (entryBelow t.held t.memory.mem) 4 place')
    (hplaces : ∀ f r m, place' f = some (r,m) → place f = some (r,m) ∨ m ≤ 3 ∧ ∀ j, m ≠ 0 → t.memory.mem f j = .unused)
    (hkeep : ∀ f r, place f = some (r,4) → place' f = some (r,4)) (hpooled : ∀ f, pool f ↔ f ∈ t.unplaced ∨ place' f ≠ none)
    (hapart : ∀ f ∈ t.unplaced, place' f = none) (hnodup : t.unplaced.Nodup) :
    t.Sound kernelPageTable kernelMem pool place' where
  tiers := htiers
  tops f r := by
    rw [htops,← h.tops f r]
    exact ⟨fun hf => (hplaces f r 4 hf).resolve_right fun hno => absurd hno.1 (by decide),hkeep f r⟩
  used f r m j hf hj := by
    rcases hplaces f r (m + 1) hf with hold | ⟨-,hnew⟩
    · by_cases hsame : f = table ∧ j = i
      · obtain ⟨rfl,rfl⟩ := hsame
        obtain ⟨-,hm⟩ := Prod.mk.inj (Option.some.inj (hold.symm.trans hplace))
        obtain rfl := Nat.succ.inj hm
        exact hentry
      · rw [hmem f j (.inl ⟨r,m,hold⟩) (not_and_or.mp hsame)]
        exact h.used f r m j hold hj
    · exact .inl (hnew j (Nat.succ_ne_zero m))
  pooled := hpooled
  apart := hapart
  nodup := hnodup
  kernel f hf := by
    obtain ⟨hout,hsame⟩ := h.kernel f hf
    have hne : f ≠ table := fun heq => Option.some_ne_none _ (hplace.symm.trans (heq ▸ h.kernel_place hf))
    exact ⟨hout,(funext fun j => hmem f j (.inr hf) (.inl hne)).trans hsame⟩
  half p hp j hj := by
    rw [htops] at hp
    refine (hmem p j (.inl ⟨p,3,h.top_place hp⟩) ?_).trans (h.half p hp j hj)
    by_contra hno
    rw [not_or,not_not,not_not] at hno
    obtain ⟨rfl,rfl⟩ := hno
    obtain ⟨-,hn⟩ := Prod.mk.inj (Option.some.inj ((h.top_place hp).symm.trans hplace))
    exact absurd (huser (by omega)) (Nat.not_lt.mpr hj)

/-- An entry changes that leads nowhere before and after, or to the same. -/
theorem alter {entry : TableEntry} (h : s.Sound kernelPageTable kernelMem pool place) (hplace : place table = some (q,n + 1))
    (huser : n = 3 → i.val < levelFourKernelEntriesStart) (hentry : UserEntry n entry)
    (hsame : entryBelow s.held (s.memory.mem.setEntry table i entry) n table i = entryBelow s.held s.memory.mem n table i) :
    (s.setEntry table i entry).Sound kernelPageTable kernelMem pool place := by
  refine h.of_entry hplace huser (fun f j _ hne => setEntry_of_ne hne) ?_ rfl (h.tiers.congr fun f j r m hf => ?_)
    (fun _ _ _ => .inl) (fun _ _ => id) h.pooled h.apart h.nodup
  · rw [setEntry_mem,setEntry_self]
    exact hentry
  · by_cases hplace' : f = table ∧ j = i
    · obtain ⟨rfl,rfl⟩ := hplace'
      obtain ⟨-,hm⟩ := Prod.mk.inj (Option.some.inj (hf.symm.trans hplace))
      obtain rfl := Nat.succ.inj hm
      exact hsame
    · exact entryBelow_congr (setEntry_of_ne (not_and_or.mp hplace'))

/-- A held frame that no program maps is hung from an entry. -/
theorem link {t : Spaces} {entry : TableEntry} (h : s.Sound kernelPageTable kernelMem pool place) (hplace : place table = some (q,n + 1))
    (huser : n = 3 → i.val < levelFourKernelEntriesStart) (hunused : s.memory.mem table i = .unused)
    (hpresent : entry.flags.present = true) (hhuge : entry.hugePage = false) (hunmapped : ¬ s.Maps entry.addr)
    (hempty : n ≠ 0 → ∀ j, s.memory.mem entry.addr j = .unused) (hmem : t.memory.mem = s.memory.mem.setEntry table i entry)
    (htops : t.tops = s.tops) (hheld : t.held = s.held.erase entry.addr) (hframes : s.unplaced = entry.addr ::ₘ t.unplaced) :
    t.Sound kernelPageTable kernelMem pool (Function.update place entry.addr (some (q,n))) := by
  have hn : n ≤ 3 := Nat.le_of_succ_le_succ (h.tiers.low hplace)
  have hnone : place entry.addr = none := h.apart _ (hframes ▸ Multiset.mem_cons_self _ _)
  have hnodup := h.nodup
  rw [hframes,Multiset.nodup_cons] at hnodup
  have hother : ∀ f j, f ≠ table ∨ j ≠ i → t.memory.mem f j = s.memory.mem f j := fun f j hne => by
    rw [hmem]
    exact setEntry_of_ne hne
  have hzero : ∀ j, n ≠ 0 → t.memory.mem entry.addr j = .unused := fun j hne => by
    rw [hother _ j (.inl fun heq => Option.some_ne_none _ (hplace.symm.trans (heq ▸ hnone)))]
    exact hempty hne j
  have hnew : entryBelow t.held t.memory.mem n table i = some entry.addr := by
    cases n with
    | zero =>
      rw [entryBelow_zero,hmem,setEntry_self,hheld]
      exact ⟨hpresent,Finset.notMem_erase _ _,rfl⟩
    | succ n =>
      rw [entryBelow_succ huser,child_eq_some,hmem,setEntry_self]
      exact ⟨hpresent,hhuge,rfl⟩
  refine h.of_entry hplace huser (fun f j _ => hother f j) ?_ htops ?_ (fun f r m hf => ?_) (fun f r hf => ?_)
    (fun f => ?_) (fun f hf => ?_) hnodup.2
  · rw [hmem,setEntry_self]
    exact .inr ⟨hpresent,fun _ => hhuge⟩
  · refine h.tiers.link hplace (entryBelow_unused hunused) hnone hnew (fun m j hm => ?_) fun f j r m hf hne => ?_
    · exact entryBelow_unused (hzero j (by omega))
    · rw [entryBelow_congr (hother f j hne)]
      refine entryBelow_held fun hm hthere => ?_
      rw [hheld,Finset.mem_erase,and_iff_right]
      intro heq
      exact hunmapped (heq ▸ h.maps_of_entry (hm ▸ hf) hthere)
  · by_cases heq : f = entry.addr
    · subst heq
      rw [Function.update_self] at hf
      obtain ⟨-,rfl⟩ := Prod.mk.inj (Option.some.inj hf)
      exact .inr ⟨hn,hzero⟩
    · rw [Function.update_of_ne heq] at hf
      exact .inl hf
  · have hne : f ≠ entry.addr := fun heq => Option.some_ne_none _ (hf.symm.trans (heq ▸ hnone))
    exact (Function.update_of_ne hne ..).trans hf
  · rw [h.pooled f,hframes,Multiset.mem_cons]
    by_cases heq : f = entry.addr
    · subst heq
      rw [Function.update_self]
      exact iff_of_true (.inl (.inl rfl)) (.inr (Option.some_ne_none _))
    · rw [Function.update_of_ne heq,or_iff_right heq]
  · have hne : f ≠ entry.addr := fun heq => hnodup.1 (heq ▸ hf)
    rw [Function.update_of_ne hne]
    exact h.apart f (hframes ▸ Multiset.mem_cons_of_mem hf)

/-- What hangs from an entry and has nothing below it is taken off. -/
theorem unlink {t : Spaces} {b : Nat} (h : s.Sound kernelPageTable kernelMem pool place) (hplace : place table = some (q,n + 1))
    (hb : entryBelow s.held s.memory.mem n table i = some b)
    (hleaf : ∀ m j, n = m + 1 → entryBelow s.held s.memory.mem m b j = none)
    (hmem : t.memory.mem = s.memory.mem.setEntry table i .unused) (htops : t.tops = s.tops)
    (hheld : ∀ f, f ≠ b → (f ∈ t.held ↔ f ∈ s.held)) (hframes : t.unplaced = b ::ₘ s.unplaced) :
    t.Sound kernelPageTable kernelMem pool (Function.update place b none) := by
  have hn : n ≤ 3 := Nat.le_of_succ_le_succ (h.tiers.low hplace)
  have hbplace : place b = some (q,n) := h.tiers.typed hplace hb
  have huser : n = 3 → i.val < levelFourKernelEntriesStart := fun hthree => by
    subst hthree
    exact (entryBelow_succ_eq_some hb).2 rfl
  have hother : ∀ f j, f ≠ table ∨ j ≠ i → t.memory.mem f j = s.memory.mem f j := fun f j hne => by
    rw [hmem]
    exact setEntry_of_ne hne
  refine h.of_entry hplace huser (fun f j _ => hother f j) ?_ htops ?_ (fun f r m hf => ?_) (fun f r hf => ?_)
    (fun f => ?_) (fun f hf => ?_) ?_
  · rw [hmem,setEntry_self]
    exact .inl rfl
  · refine h.tiers.unlink hplace hb hleaf (entryBelow_unused (by rw [hmem,setEntry_self])) fun f j r m hf hne => ?_
    rw [entryBelow_congr (hother f j hne)]
    refine entryBelow_held fun hm hthere => ?_
    subst hm
    by_cases heq : (s.memory.mem f j).addr = b
    · -- no second page is this frame
      by_cases hheldb : b ∈ s.held
      · exact absurd (h.apart b (Multiset.mem_add.mpr (.inr hheldb))) (hbplace ▸ Option.some_ne_none _)
      · have hfb : entryBelow s.held s.memory.mem 0 f j = some b := entryBelow_zero.mpr ⟨hthere,heq ▸ hheldb,heq⟩
        obtain ⟨hft,hji⟩ := h.tiers.single hf hplace hfb hb
        exact (hne.elim (· hft) (· hji)).elim
    · exact hheld _ heq
  · by_cases heq : f = b
    · rw [heq,Function.update_self] at hf
      cases hf
    · rw [Function.update_of_ne heq] at hf
      exact .inl hf
  · refine (Function.update_of_ne (fun heq => ?_) ..).trans hf
    obtain ⟨-,hfour⟩ := Prod.mk.inj (Option.some.inj (hf.symm.trans (heq ▸ hbplace)))
    omega
  · rw [h.pooled f,hframes,Multiset.mem_cons]
    by_cases heq : f = b
    · subst heq
      exact iff_of_true (.inr (hbplace ▸ Option.some_ne_none _)) (.inl (.inl rfl))
    · rw [Function.update_of_ne heq,or_iff_right heq]
  · rw [hframes,Multiset.mem_cons] at hf
    by_cases heq : f = b
    · rw [heq,Function.update_self]
    · rw [Function.update_of_ne heq]
      exact h.apart f (hf.resolve_left heq)
  · rw [hframes,Multiset.nodup_cons]
    exact ⟨fun hmem => Option.some_ne_none _ (hbplace.symm.trans (h.apart b hmem)),h.nodup⟩

end Spaces.Sound
end MofuOS.Memory
