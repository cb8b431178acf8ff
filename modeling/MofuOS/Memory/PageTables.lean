import MofuOS.Usize
import MofuOS.Lib.TableTree
import MofuOS.Memory.FrameAllocator
import MofuOS.Memory.UserMem

/-! The page tables in the frames of the machine, and the walks through them. Addresses of frames count pages. -/
namespace MofuOS.Memory
open Lib

abbrev entriesPerTable : Nat := 512

abbrev TableIndex := Fin entriesPerTable

structure TableEntry where
  addr : Nat
  flags : PageTableFlags
  hugePage : Bool
  /-- The other flags. -/
  others : Nat
  deriving DecidableEq, Repr

def TableEntry.unused : TableEntry := ⟨0,{},false,0⟩

/-- What every frame holds when it is read as a table. -/
abbrev TableStore := Nat → TableIndex → TableEntry

namespace TableStore
variable (mem : TableStore)

def setEntry (table : Nat) (i : TableIndex) (entry : TableEntry) : TableStore :=
  Function.update mem table (Function.update (mem table) i entry)

/-- Tables that hold the entries of a list. -/
def ofEntries (entries : List (Nat × TableIndex × TableEntry)) : TableStore := fun table i =>
  match entries.find? (fun e => e.1 = table ∧ e.2.1 = i) with
  | some e => e.2.2
  | none => .unused

/-- Present entry that points to a lower level table -/
def isTableEntry (entry : TableEntry) : Bool := entry.flags.present && !entry.hugePage

def child (table : Nat) (i : TableIndex) : Option Nat :=
  if isTableEntry (mem table i) then some (mem table i).addr else none

end TableStore

/-- The index of an address in the tables of a level, of which level 0 holds pages. -/
def tableIndex (vaddr level : Nat) : TableIndex := ⟨vaddr / 2^(12 + 9 * level) % 512,Nat.mod_lt _ (by decide)⟩

/-- The indices of an address from a level on. -/
def indexPath (vaddr : Nat) : Nat → List TableIndex
  | 0 => [tableIndex vaddr 0]
  | level + 1 => tableIndex vaddr (level + 1) :: indexPath vaddr level

/-- Two addresses that the tables do not tell apart. -/
def SamePage (a b : Nat) : Prop := indexPath a 3 = indexPath b 3

instance (a b : Nat) : Decidable (SamePage a b) := inferInstanceAs (Decidable (_ = _))

/-- The address is in a page of 1 GiB. -/
def InGib (mem : TableStore) (pml4 vaddr : Nat) : Prop :=
  ∃ pdpt, mem.child pml4 (tableIndex vaddr 3) = some pdpt ∧ (mem pdpt (tableIndex vaddr 2)).hugePage = true

/-- What is allowed on the way to a page and by its own entry. -/
def PageTableFlags.restrict (outer inner : PageTableFlags) : PageTableFlags where
  present := outer.present && inner.present
  writable := outer.writable && inner.writable
  userAccessible := outer.userAccessible && inner.userAccessible
  noExecute := outer.noExecute || inner.noExecute

/-- How many bytes an entry of a level is for. -/
def spanOf (level : Nat) : Nat := 2^(12 + 9 * level)

/-- The translation that the processor makes: the address and what is allowed there. -/
def hardwareWalk (mem : TableStore) (vaddr : Nat) : Nat → Nat → PageTableFlags → Option (Nat × PageTableFlags)
  | 0,table,outer =>
    let entry := mem table (tableIndex vaddr 0)
    if entry.flags.present then some (entry.addr * pageSize + vaddr % pageSize,outer.restrict entry.flags) else none
  | level + 1,table,outer =>
    let entry := mem table (tableIndex vaddr (level + 1))
    if entry.flags.present then
      if entry.hugePage then
        some (entry.addr * pageSize / spanOf (level + 1) * spanOf (level + 1) + vaddr % spanOf (level + 1),outer.restrict entry.flags)
      else hardwareWalk mem vaddr level entry.addr (outer.restrict entry.flags)
    else none

def anything : PageTableFlags := ⟨true,true,true,false⟩

def hardwareTranslate (mem : TableStore) (pml4 vaddr : Nat) : Option (Nat × PageTableFlags) :=
  hardwareWalk mem vaddr 3 pml4 anything

namespace PageTables

def translateUserVirtToPhys (mem : TableStore) (pml4 userVaddr : Nat) : Option Nat :=
  let pml4Entry := mem pml4 (tableIndex userVaddr 3)
  if !pml4Entry.flags.present then none
  else
    let pdptEntry := mem pml4Entry.addr (tableIndex userVaddr 2)
    if !pdptEntry.flags.present then none
    else
      let pdEntry := mem pdptEntry.addr (tableIndex userVaddr 1)
      if !pdEntry.flags.present then none
      else if pdEntry.hugePage then some (pdEntry.addr * pageSize + userVaddr % 2^21)
      else
        let ptEntry := mem pdEntry.addr (tableIndex userVaddr 0)
        if !ptEntry.flags.present then none else some (ptEntry.addr * pageSize + userVaddr % pageSize)

end PageTables

/-- The tables with the frames that are free. -/
structure TableMemory where
  mem : TableStore
  allocator : MemoryMapFrameAllocator Nat

section Walks
variable {mem mem' : TableStore} {vaddr level table pml4 n : Nat} {outer : PageTableFlags} {entry : TableEntry} {i j : TableIndex}

theorem child_eq_some : mem.child table i = some n ↔
    (mem table i).flags.present = true ∧ (mem table i).hugePage = false ∧ (mem table i).addr = n := by
  rw [TableStore.child,TableStore.isTableEntry]
  cases (mem table i).flags.present <;> cases (mem table i).hugePage <;> simp

theorem setEntry_self : mem.setEntry table i entry table i = entry := by
  rw [TableStore.setEntry,Function.update_self,Function.update_self]

theorem setEntry_of_ne (h : n ≠ table ∨ j ≠ i) : mem.setEntry table i entry n j = mem n j := by
  rw [TableStore.setEntry]
  by_cases hn : n = table
  · rw [hn,Function.update_self,Function.update_of_ne (h.resolve_left (not_not.mpr hn))]
  · rw [Function.update_of_ne hn]

/-- Only the entries on the way matter. -/
theorem hardwareWalk_congr (h : ∀ p i rest b, p ++ i :: rest = indexPath vaddr level → descend mem.child table p = some b →
    mem' b i = mem b i) : hardwareWalk mem' vaddr level table outer = hardwareWalk mem vaddr level table outer := by
  induction level generalizing table outer with
  | zero => rw [hardwareWalk,hardwareWalk,h [] _ [] table rfl rfl]
  | succ level ih =>
    rw [hardwareWalk,hardwareWalk,h [] _ _ table rfl rfl]
    split_ifs with hpresent hhuge
    · rfl
    · have hchild : mem.child table (tableIndex vaddr (level + 1)) = some (mem table (tableIndex vaddr (level + 1))).addr :=
        child_eq_some.mpr ⟨hpresent,Bool.not_eq_true _ ▸ hhuge,rfl⟩
      refine ih fun p i rest b hp hb => h (tableIndex vaddr (level + 1) :: p) i rest b (congrArg (_ :: ·) hp) ?_
      rw [descend_cons hchild]
      exact hb
    · rfl

/-- What the kernel takes its tables to be: a tree, whose entries are unused or present, with aligned pages of 2 MiB. -/
structure SoundTables (mem : TableStore) (pml4 : Nat) : Prop where
  unshared : Unshared mem.child 3 pml4
  used : ∀ p b i, p.length ≤ 2 → descend mem.child pml4 p = some b → mem b i = .unused ∨ (mem b i).flags.present = true
  top : ∀ i, (mem pml4 i).hugePage = false
  aligned : ∀ p b i, p.length = 2 → descend mem.child pml4 p = some b → (mem b i).hugePage = true → 512 ∣ (mem b i).addr

theorem ofEntries_cases (entries : List (Nat × TableIndex × TableEntry)) (table : Nat) (i : TableIndex) :
    TableStore.ofEntries entries table i = .unused ∨ (table,i,TableStore.ofEntries entries table i) ∈ entries := by
  rw [TableStore.ofEntries]
  cases hfind : entries.find? (fun e => e.1 = table ∧ e.2.1 = i) with
  | none => exact .inl rfl
  | some e =>
    have hsome := List.find?_some hfind
    obtain ⟨rfl,rfl⟩ := of_decide_eq_true hsome
    exact .inr (List.mem_of_find?_eq_some hfind)

theorem ofEntries_child {entries : List (Nat × TableIndex × TableEntry)}
    (h : (TableStore.ofEntries entries).child table i = some n) :
    ∃ entry, (table,i,entry) ∈ entries ∧ TableStore.isTableEntry entry = true ∧ entry.addr = n := by
  obtain ⟨hpresent,hhuge,haddr⟩ := child_eq_some.mp h
  rcases ofEntries_cases entries table i with hunused | hmem
  · rw [hunused] at hpresent
    cases hpresent
  · exact ⟨_,hmem,by rw [TableStore.isTableEntry,hpresent,hhuge]; rfl,haddr⟩

/-- Listed entries are sound where each table is found through one of them. -/
theorem soundTables_ofEntries {entries : List (Nat × TableIndex × TableEntry)} (parent : Nat → Option (Nat × TableIndex))
    (hparent : ∀ e ∈ entries, TableStore.isTableEntry e.2.2 = true → parent e.2.2.addr = some (e.1,e.2.1)) (hroot : parent pml4 = none)
    (hused : ∀ e ∈ entries, e.2.2.flags.present = true) (htop : ∀ e ∈ entries, e.1 = pml4 → e.2.2.hugePage = false)
    (haligned : ∀ e ∈ entries, e.2.2.hugePage = true → 512 ∣ e.2.2.addr) : SoundTables (.ofEntries entries) pml4 := by
  refine ⟨.of_parent parent (fun d i b hb => ?_) hroot,fun p b i _ _ => ?_,fun i => ?_,fun p b i _ _ hhuge => ?_⟩
  · obtain ⟨entry,hmem,htable,rfl⟩ := ofEntries_child hb
    exact hparent _ hmem htable
  · exact (ofEntries_cases entries b i).imp_right (hused _ ·)
  · rcases ofEntries_cases entries pml4 i with hunused | hmem
    · rw [hunused]
      rfl
    · exact htop _ hmem rfl
  · rcases ofEntries_cases entries b i with hunused | hmem
    · rw [hunused] at hhuge
      cases hhuge
    · exact haligned _ hmem hhuge

/-- The kernel's walk finds what the processor finds, but for pages of 1 GiB and pages that are not aligned. -/
theorem translateUserVirtToPhys_eq (htop : (mem pml4 (tableIndex vaddr 3)).hugePage = false)
    (hgib : ∀ b, mem.child pml4 (tableIndex vaddr 3) = some b → (mem b (tableIndex vaddr 2)).hugePage = false)
    (haligned : ∀ b c, mem.child pml4 (tableIndex vaddr 3) = some b → mem.child b (tableIndex vaddr 2) = some c →
      (mem c (tableIndex vaddr 1)).hugePage = true → 512 ∣ (mem c (tableIndex vaddr 1)).addr) :
    PageTables.translateUserVirtToPhys mem pml4 vaddr = (hardwareTranslate mem pml4 vaddr).map Prod.fst := by
  rw [PageTables.translateUserVirtToPhys,hardwareTranslate]
  simp only [hardwareWalk]
  cases hp₃ : (mem pml4 (tableIndex vaddr 3)).flags.present with
  | false => rfl
  | true =>
    have hc₃ := child_eq_some.mpr ⟨hp₃,htop,rfl⟩
    have hh₂ := hgib _ hc₃
    rw [htop]
    generalize (mem pml4 (tableIndex vaddr 3)).addr = pdpt at hc₃ hh₂ ⊢
    cases hp₂ : (mem pdpt (tableIndex vaddr 2)).flags.present with
    | false => rfl
    | true =>
      have hc₂ := child_eq_some.mpr ⟨hp₂,hh₂,rfl⟩
      rw [hh₂]
      generalize (mem pdpt (tableIndex vaddr 2)).addr = pd at hc₂ ⊢
      cases hp₁ : (mem pd (tableIndex vaddr 1)).flags.present with
      | false => rfl
      | true =>
        cases hh₁ : (mem pd (tableIndex vaddr 1)).hugePage with
        | true =>
          obtain ⟨k,hk⟩ := haligned pdpt pd hc₃ hc₂ hh₁
          have hbase : (mem pd (tableIndex vaddr 1)).addr * pageSize = k * spanOf 1 := by
            rw [hk]
            show 512 * k * 4096 = k * 2097152
            omega
          show some ((mem pd (tableIndex vaddr 1)).addr * pageSize + vaddr % spanOf 1) =
            some ((mem pd (tableIndex vaddr 1)).addr * pageSize / spanOf 1 * spanOf 1 + vaddr % spanOf 1)
          rw [hbase,Nat.mul_div_cancel k (show 0 < spanOf 1 by decide)]
        | false =>
          cases hp₀ : (mem (mem pd (tableIndex vaddr 1)).addr (tableIndex vaddr 0)).flags.present <;> rfl

end Walks
end MofuOS.Memory
