import MofuOS.Memory.Isolation
import MofuOS.Memory.TableMapper
import MofuOS.Memory.Rollback

/-! The regions of a process in the tables of the machine: what map_virt_mem_region, its rollback and
map_specific_frame do to the pages of a process is a run of its address space. -/
namespace MofuOS.Memory
open Lib

/-- The pages of the user half. -/
def userPages : Nat := 2^35

/-- The indices on the way to a page, down to the table with n levels of tables below it. -/
def tablePath (page n : Nat) : List TableIndex := (indexPath (page * pageSize) 3).take (3 - n)

/-- The entry of a page in its last table. -/
def leafIndex (page : Nat) : TableIndex := tableIndex (page * pageSize) 0

section Paths
variable {page page' n m : Nat}

theorem tableIndex_page : (tableIndex (page * pageSize) n).val = page / 2^(9 * n) % 512 := by
  show page * 2^12 / 2^(12 + 9 * n) % 512 = _
  rw [Nat.pow_add,Nat.mul_comm page,Nat.mul_div_mul_left _ _ (Nat.two_pow_pos 12)]

theorem length_tablePath : (tablePath page n).length = 3 - n := by
  rw [tablePath,List.length_take]
  exact Nat.min_eq_left (Nat.le_trans (Nat.sub_le 3 n) (by decide : 3 ≤ 4))

theorem tablePath_succ (hn : n ≤ 2) : tablePath page n = tablePath page (n + 1) ++ [tableIndex (page * pageSize) (n + 1)] := by
  obtain rfl | rfl | rfl : n = 0 ∨ n = 1 ∨ n = 2 := by omega
  all_goals rfl

theorem tablePath_cons (hn : n ≤ 2) : ∃ rest, tablePath page n = tableIndex (page * pageSize) 3 :: rest := by
  obtain rfl | rfl | rfl : n = 0 ∨ n = 1 ∨ n = 2 := by omega
  all_goals exact ⟨_,rfl⟩

theorem tableIndex_of_page {v : Nat} : tableIndex (v / pageSize * pageSize) n = tableIndex v n := by
  rw [Fin.ext_iff,tableIndex_page]
  show v / 2^12 / 2^(9 * n) % 512 = v / 2^(12 + 9 * n) % 512
  rw [Nat.div_div_eq_div_mul,Nat.pow_add]

theorem indexPath_of_page {v : Nat} : indexPath (v / pageSize * pageSize) n = indexPath v n := by
  induction n with
  | zero => rw [indexPath,indexPath,tableIndex_of_page]
  | succ n ih => rw [indexPath,indexPath,tableIndex_of_page,ih]

theorem tablePath_user (hpage : page < userPages) (hn : n = 2) :
    (tableIndex (page * pageSize) (n + 1)).val < levelFourKernelEntriesStart := by
  rw [tableIndex_page,hn]
  unfold userPages at hpage
  unfold levelFourKernelEntriesStart
  omega

/-- Two pages share the tables that they agree on. -/
theorem tablePath_inj (hpage : page < userPages) (hpage' : page' < userPages) (hn : n ≤ 2) (hm : m ≤ 2)
    (h : tablePath page n = tablePath page' m) : n = m ∧ page / 2^(9 * (n + 1)) = page' / 2^(9 * (m + 1)) := by
  have hlen := congrArg List.length h
  rw [length_tablePath,length_tablePath] at hlen
  obtain rfl : n = m := by omega
  refine ⟨rfl,?_⟩
  unfold userPages at hpage hpage'
  obtain rfl | rfl | rfl : n = 0 ∨ n = 1 ∨ n = 2 := by omega
  all_goals
    simp only [tablePath,indexPath,List.take,List.cons.injEq,Fin.ext_iff,tableIndex_page,and_true] at h
    norm_num at h ⊢
    omega

theorem tablePath_of_key (hn : n ≤ 2) (h : page / 2^(9 * (n + 1)) = page' / 2^(9 * (n + 1))) :
    tablePath page n = tablePath page' n := by
  obtain rfl | rfl | rfl : n = 0 ∨ n = 1 ∨ n = 2 := by omega
  all_goals
    simp only [tablePath,indexPath,List.take,List.cons.injEq,Fin.ext_iff,tableIndex_page,and_true]
    norm_num at h ⊢
    omega

theorem page_of_leaf (hpage : page < userPages) (hpage' : page' < userPages) (h : tablePath page 0 = tablePath page' 0)
    (hleaf : leafIndex page = leafIndex page') : page = page' := by
  have hkey := (tablePath_inj hpage hpage' (by decide) (by decide) h).2
  have hindex := Fin.ext_iff.mp hleaf
  rw [leafIndex,leafIndex,tableIndex_page,tableIndex_page] at hindex
  norm_num at hkey hindex
  omega

end Paths

namespace Spaces

/-- The table at the end of a list of indices. -/
abbrev followFrom (s : Spaces) (pml4 : Nat) (path : List TableIndex) : Option Nat :=
  follow (entryBelow s.held s.memory.mem) 4 pml4 path

theorem followFrom_append {s : Spaces} {pml4 : Nat} {path rest : List TableIndex} (hlen : path.length ≤ 4) :
    s.followFrom pml4 (path ++ rest) =
      (s.followFrom pml4 path).bind (follow (entryBelow s.held s.memory.mem) (4 - path.length) · rest) := follow_append hlen

theorem maps_iff {s : Spaces} {f : Nat} : s.Maps f ↔ ∃ q ∈ s.tops, ∃ path table i, path.length = 3 ∧
    s.followFrom q path = some table ∧ (s.memory.mem table i).flags.present = true ∧ (s.memory.mem table i).addr = f := by
  constructor
  · rintro ⟨q,path,i,table,hlen,ht,hpresent,haddr⟩
    rw [tableAt] at ht
    split_ifs at ht with hguard
    exact ⟨q,hguard.1,path,table,i,hlen,ht,hpresent,haddr⟩
  · rintro ⟨q,hq,path,table,i,hlen,ht,hpresent,haddr⟩
    refine ⟨q,path,i,table,hlen,?_,hpresent,haddr⟩
    rw [tableAt,if_pos ⟨hq,hlen.le,fun hnil => absurd (congrArg List.length hnil) (by simp [hlen])⟩]
    exact ht

/-- What an entry of a last table says of its page. -/
def leafOf (entry : TableEntry) : Option (PageTableEntry Nat) :=
  if entry.flags.present = true then some ⟨entry.addr,entry.flags⟩ else none

theorem leafOf_present {entry : TableEntry} (h : entry.flags.present = true) : leafOf entry = some ⟨entry.addr,entry.flags⟩ := if_pos h

/-- An empty table was hung from an unused entry. -/
structure Linked (s t : Spaces) (pml4 : Nat) (above : List TableIndex) (table : Nat) (i : TableIndex) (entry : TableEntry) : Prop where
  short : above.length ≤ 2
  user : above = [] → i.val < levelFourKernelEntriesStart
  found : s.followFrom pml4 above = some table
  unused : s.memory.mem table i = .unused
  present : entry.flags.present = true
  plain : entry.hugePage = false
  held : entry.addr ∈ s.held
  empty : ∀ j, s.memory.mem entry.addr j = .unused
  tops : t.tops = s.tops
  memory : t.memory.mem = s.memory.mem.setEntry table i entry

namespace Sound
variable {kernelPageTable : Nat} {kernelMem : TableStore} {pool : Nat → Prop} {place : Nat → Option (Nat × Nat)} {s t : Spaces}
  {pml4 q f table n : Nat} {path above : List TableIndex} {i j : TableIndex} {entry : TableEntry}

theorem followFrom_place (h : s.Sound kernelPageTable kernelMem pool place) (hq : q ∈ s.tops) (hlen : path.length ≤ 3)
    (hpath : s.followFrom q path = some f) : place f = some (q,3 - path.length + 1) := by
  obtain ⟨m,hm,hplace⟩ := h.tiers.follow_place (h.top_place hq) hpath
  obtain rfl : m = 3 - path.length + 1 := by omega
  exact hplace

/-- The memory changes in no table. -/
theorem followFrom_of_tables (h : s.Sound kernelPageTable kernelMem pool place) (hq : q ∈ s.tops) (hlen : path.length ≤ 3)
    (hmem : ∀ f r m, place f = some (r,m + 1) → t.memory.mem f = s.memory.mem f) : t.followFrom q path = s.followFrom q path := by
  refine follow_congr fun p j rest b hp hb => ?_
  have hshort : p.length ≤ 2 := by
    rw [← hp,List.length_append,List.length_cons] at hlen
    omega
  obtain ⟨k,hk⟩ : ∃ k, 4 - (p.length + 1) = k + 1 := ⟨2 - p.length,by omega⟩
  rw [hk,entryBelow_held fun hzero => absurd hzero (Nat.succ_ne_zero k)]
  exact entryBelow_congr (congrFun (hmem b q _ (h.followFrom_place hq (by omega) hb)) j)

/-- An entry changes that is not on the way. -/
theorem followFrom_of_entry (h : s.Sound kernelPageTable kernelMem pool place) (hlive : pml4 ∈ s.tops) (hq : q ∈ s.tops)
    (htable : s.followFrom pml4 above = some table) (hmem : t.memory.mem = s.memory.mem.setEntry table i entry)
    (hlen : path.length ≤ 3) (hno : ¬ (q = pml4 ∧ above ++ [i] <+: path)) : t.followFrom q path = s.followFrom q path := by
  refine follow_congr fun p j rest b hp hb => ?_
  have hshort : p.length ≤ 2 := by
    rw [← hp,List.length_append,List.length_cons] at hlen
    omega
  obtain ⟨k,hk⟩ : ∃ k, 4 - (p.length + 1) = k + 1 := ⟨2 - p.length,by omega⟩
  rw [hk,entryBelow_held fun hzero => absurd hzero (Nat.succ_ne_zero k)]
  refine entryBelow_congr ?_
  rw [hmem]
  refine setEntry_of_ne (not_and_or.mp fun hsame => hno ?_)
  obtain ⟨rfl,rfl⟩ := hsame
  obtain ⟨rfl,rfl⟩ := h.tiers.follow_inj (h.top_place hq) (h.top_place hlive) hb htable
  exact ⟨rfl,rest,by rw [← hp,List.append_assoc,List.singleton_append]⟩

/-- An entry of a last table is on the way to no table. -/
theorem followFrom_of_leaf (h : s.Sound kernelPageTable kernelMem pool place) (hlive : pml4 ∈ s.tops) (hq : q ∈ s.tops)
    (hlast : above.length = 3) (htable : s.followFrom pml4 above = some table)
    (hmem : t.memory.mem = s.memory.mem.setEntry table i entry) (hlen : path.length ≤ 3) : t.followFrom q path = s.followFrom q path := by
  refine h.followFrom_of_entry hlive hq htable hmem hlen fun hno => ?_
  have hle := hno.2.length_le
  rw [List.length_append,List.length_singleton] at hle
  omega

section Link
variable (h : s.Sound kernelPageTable kernelMem pool place) (hl : Linked s t pml4 above table i entry) (hlive : pml4 ∈ s.tops)
include h hl hlive

theorem linked_ne : entry.addr ≠ table := by
  intro heq
  have hplace := h.followFrom_place hlive (Nat.le_succ_of_le hl.short) hl.found
  rw [← heq,h.held_place hl.held] at hplace
  cases hplace

/-- The new table has no entries. -/
theorem linked_empty (j : TableIndex) : t.memory.mem entry.addr j = .unused := by
  rw [hl.memory,setEntry_of_ne (.inl (h.linked_ne hl hlive)),hl.empty]

theorem followFrom_of_link (hq : q ∈ s.tops) (hlen : path.length ≤ 3) :
    t.followFrom q path = if q = pml4 ∧ path = above ++ [i] then some entry.addr else s.followFrom q path := by
  have hshort := hl.short
  by_cases hpre : q = pml4 ∧ above ++ [i] <+: path
  swap
  · rw [h.followFrom_of_entry hlive hq hl.found hl.memory hlen hpre,if_neg]
    rintro ⟨rfl,rfl⟩
    exact hpre ⟨rfl,List.prefix_rfl⟩
  obtain ⟨rfl,rest,rfl⟩ := hpre
  obtain ⟨k,hk⟩ : ∃ k, above.length + k = 2 := ⟨2 - above.length,by omega⟩
  have habove : t.followFrom q above = some table := by
    rw [h.followFrom_of_entry hlive hq hl.found hl.memory (by omega) fun hno => ?_,hl.found]
    have hle := hno.2.length_le
    rw [List.length_append,List.length_singleton] at hle
    omega
  have hchild : entryBelow t.held t.memory.mem (k + 1) table i = some entry.addr := by
    rw [entryBelow_succ fun hthree => hl.user (List.eq_nil_of_length_eq_zero (by omega)),child_eq_some,hl.memory,setEntry_self]
    exact ⟨hl.present,hl.plain,rfl⟩
  have hnew : t.followFrom q (above ++ [i]) = some entry.addr := (follow_concat (by omega) habove).trans hchild
  have hold : s.followFrom q (above ++ [i]) = none :=
    (follow_concat (m := k + 1) (by omega) hl.found).trans (entryBelow_unused hl.unused)
  have hstop : (above ++ [i]).length ≤ 4 := by
    rw [List.length_append,List.length_singleton]
    omega
  cases rest with
  | nil => rw [List.append_nil,hnew,if_pos ⟨rfl,rfl⟩]
  | cons j rest =>
    rw [if_neg fun heq => absurd (congrArg List.length heq.2) (by simp)]
    have hgone : t.followFrom q (above ++ [i] ++ j :: rest) = none := by
      rw [followFrom_append hstop,hnew,Option.bind_some,List.length_append,List.length_singleton]
      obtain ⟨m,hm⟩ : ∃ m, 4 - (above.length + 1) = m + 1 := ⟨2 - above.length,by omega⟩
      rw [hm,follow,entryBelow_unused (h.linked_empty hl hlive j),Option.bind_none]
    rw [hgone,followFrom_append hstop,hold,Option.bind_none]

/-- The last tables stay as they are. -/
theorem linked_last (hq : q ∈ s.tops) (hthree : path.length = 3) (hpath : s.followFrom q path = some f) :
    t.memory.mem f j = s.memory.mem f j := by
  have hshort := hl.short
  rw [hl.memory]
  refine setEntry_of_ne (.inl ?_)
  rintro rfl
  have hplace := (h.followFrom_place hq hthree.le hpath).symm.trans (h.followFrom_place hlive (Nat.le_succ_of_le hshort) hl.found)
  obtain ⟨-,hlevel⟩ := Prod.mk.inj (Option.some.inj hplace)
  omega

theorem maps_of_link (hf : t.Maps f) : s.Maps f := by
  obtain ⟨q,hq,path,b,j,hthree,hb,hpresent,haddr⟩ := maps_iff.mp hf
  rw [hl.tops] at hq
  rw [h.followFrom_of_link hl hlive hq hthree.le] at hb
  split_ifs at hb
  · cases hb
    rw [h.linked_empty hl hlive] at hpresent
    cases hpresent
  · rw [h.linked_last hl hlive hq hthree hb] at hpresent haddr
    exact maps_iff.mpr ⟨q,hq,path,b,j,hthree,hb,hpresent,haddr⟩

end Link

/-- No program maps a frame anew when only other frames than the tables change. -/
theorem maps_of_tables (h : s.Sound kernelPageTable kernelMem pool place) (htops : t.tops = s.tops)
    (hmem : ∀ f r m, place f = some (r,m + 1) → t.memory.mem f = s.memory.mem f) (hf : t.Maps f) : s.Maps f := by
  obtain ⟨q,hq,path,table,i,hlen,htable,hpresent,haddr⟩ := maps_iff.mp hf
  rw [htops] at hq
  rw [h.followFrom_of_tables hq hlen.le hmem] at htable
  rw [hmem table _ _ (h.followFrom_place hq hlen.le htable)] at hpresent haddr
  exact maps_iff.mpr ⟨q,hq,path,table,i,hlen,htable,hpresent,haddr⟩

/-- Where a page of a last table changes, no other frame is mapped anew. -/
theorem maps_of_leaf (h : s.Sound kernelPageTable kernelMem pool place) (hlive : pml4 ∈ s.tops) (hlast : above.length = 3)
    (htable : s.followFrom pml4 above = some table) (htops : t.tops = s.tops)
    (hmem : t.memory.mem = s.memory.mem.setEntry table i entry) (hf : t.Maps f) :
    s.Maps f ∨ entry.flags.present = true ∧ entry.addr = f := by
  obtain ⟨q,hq,path,table',j,hlen,htable',hpresent,haddr⟩ := maps_iff.mp hf
  rw [htops] at hq
  rw [h.followFrom_of_leaf hlive hq hlast htable hmem hlen.le] at htable'
  by_cases hsame : table' = table ∧ j = i
  · obtain ⟨rfl,rfl⟩ := hsame
    rw [hmem,setEntry_self] at hpresent haddr
    exact .inr ⟨hpresent,haddr⟩
  · rw [hmem,setEntry_of_ne (not_and_or.mp hsame)] at hpresent haddr
    exact .inl (maps_iff.mpr ⟨q,hq,path,table',j,hlen,htable',hpresent,haddr⟩)

/-- A frame that the kernel does not hold is mapped once, so that no program maps it when its page is gone. -/
theorem not_maps_of_unmap (h : s.Sound kernelPageTable kernelMem pool place) (hlive : pml4 ∈ s.tops) (hlast : above.length = 3)
    (htable : s.followFrom pml4 above = some table) (htops : t.tops = s.tops)
    (hmem : t.memory.mem = s.memory.mem.setEntry table i .unused) (hpresent : (s.memory.mem table i).flags.present = true)
    (hheld : (s.memory.mem table i).addr ∉ s.held) : ¬ t.Maps (s.memory.mem table i).addr := by
  intro hf
  obtain ⟨q,hq,path,table',j,hlen,htable',hpresent',haddr⟩ := maps_iff.mp hf
  rw [htops] at hq
  rw [h.followFrom_of_leaf hlive hq hlast htable hmem hlen.le] at htable'
  have hne : ¬ (table' = table ∧ j = i) := by
    rintro ⟨rfl,rfl⟩
    rw [hmem,setEntry_self] at hpresent'
    cases hpresent'
  rw [hmem,setEntry_of_ne (not_and_or.mp hne)] at hpresent' haddr
  have hplace := h.followFrom_place hlive hlast.le htable
  have hplace' := h.followFrom_place hq hlen.le htable'
  rw [hlast] at hplace
  rw [hlen] at hplace'
  exact hne (h.tiers.single hplace' hplace (entryBelow_zero.mpr ⟨hpresent',by rwa [haddr],haddr⟩)
    (entryBelow_zero.mpr ⟨hpresent,hheld,rfl⟩))

/-- Down to the last table the processor goes the way of the indices. -/
theorem hardwareWalk_fst {v : Nat} {outer : PageTableFlags} (h : s.Sound kernelPageTable kernelMem pool place)
    (hplace : place table = some (q,n + 1)) (huser : n = 3 → (tableIndex v 3).val < levelFourKernelEntriesStart) :
    (hardwareWalk s.memory.mem v n table outer).map Prod.fst =
      (follow (entryBelow s.held s.memory.mem) (n + 1) table ((indexPath v n).take n)).bind fun last =>
        (leafOf (s.memory.mem last (tableIndex v 0))).map fun e => e.frame * pageSize + v % pageSize := by
  induction n generalizing table outer with
  | zero =>
    rw [hardwareWalk,List.take_zero,follow_nil,Option.bind_some,leafOf]
    split_ifs <;> rfl
  | succ n ih =>
    have huser' : n + 1 = 3 → (tableIndex v (n + 1)).val < levelFourKernelEntriesStart := fun hthree => by
      rw [hthree]
      exact huser hthree
    rw [hardwareWalk,indexPath,List.take_succ_cons]
    rcases h.used table q (n + 1) (tableIndex v (n + 1)) hplace huser' with hunused | ⟨hpresent,hplain⟩
    · rw [follow,entryBelow_unused hunused,hunused]
      rfl
    · have hhuge := hplain (Nat.succ_ne_zero n)
      have hchild : entryBelow s.held s.memory.mem (n + 1) table (tableIndex v (n + 1)) = some _ :=
        (entryBelow_succ huser').trans (child_eq_some.mpr ⟨hpresent,hhuge,rfl⟩)
      rw [if_pos hpresent,if_neg (by rw [hhuge]; exact Bool.false_ne_true),follow_cons hchild]
      exact ih (h.tiers.typed hplace hchild) fun hthree => absurd (h.tiers.low hplace) (by omega)

end Sound

theorem tableAt_eq {s : Spaces} {pml4 table : Nat} {path : List TableIndex} {i : TableIndex} (hlive : pml4 ∈ s.tops)
    (hlen : path.length ≤ 3) (huser : path = [] → i.val < levelFourKernelEntriesStart) (htable : s.followFrom pml4 path = some table) :
    s.tableAt pml4 path i = some table := by
  rw [tableAt,if_pos ⟨hlive,hlen,huser⟩]
  exact htable

/-- A run of one address space that gives away no frame that a program maps. -/
def Runs (kernelPageTable pml4 : Nat) (s t : Spaces) : Prop :=
  ∃ acts, steps (step kernelPageTable) acts s = some t ∧ stepsMeet (step kernelPageTable) careful acts s ∧
    ∀ a ∈ acts, a.space = none ∨ a.space = some pml4

namespace Runs
variable {kernelPageTable pml4 : Nat} {s t u : Spaces} {a : SpaceAct}

theorem refl (s : Spaces) : Runs kernelPageTable pml4 s s := ⟨[],rfl,trivial,by simp⟩

theorem trans (h : Runs kernelPageTable pml4 s t) (h' : Runs kernelPageTable pml4 t u) : Runs kernelPageTable pml4 s u := by
  obtain ⟨as,hrun,hcareful,hspace⟩ := h
  obtain ⟨bs,hrun',hcareful',hspace'⟩ := h'
  refine ⟨as ++ bs,(steps_append hrun).trans hrun',stepsMeet_append hcareful fun v hv => ?_,fun a ha => ?_⟩
  · rw [hrun] at hv
    cases hv
    exact hcareful'
  · exact (List.mem_append.mp ha).elim (hspace a) (hspace' a)

theorem step (hstep : Spaces.step kernelPageTable a s = some t) (hcareful : careful a s) (hspace : a.space = none ∨ a.space = some pml4) :
    Runs kernelPageTable pml4 s t := by
  refine ⟨[a],?_,⟨hcareful,fun _ _ => trivial⟩,by simpa using hspace⟩
  rw [steps,hstep]
  rfl

/-- Who has which frame is known after a run. -/
theorem sound {kernelMem : TableStore} {pool : Nat → Prop} {place : Nat → Option (Nat × Nat)} (h : Runs kernelPageTable pml4 s t)
    (hs : s.Sound kernelPageTable kernelMem pool place) : ∃ place', t.Sound kernelPageTable kernelMem pool place' := by
  obtain ⟨acts,hrun,hcareful,-⟩ := h
  exact steps_invariant (I := fun s => ∃ place, s.Sound kernelPageTable kernelMem pool place)
    (fun _ _ _ hc ⟨_,hs⟩ hstep => (hs.step_sound hc hstep).imp fun _ h => h.1) hcareful ⟨_,hs⟩ hrun

end Runs

def leafAt (s : Spaces) (pml4 page : Nat) : Option (PageTableEntry Nat) :=
  (s.followFrom pml4 (tablePath page 0)).bind fun table => leafOf (s.memory.mem table (leafIndex page))

/-- The pages of an address space are those of a process. -/
structure Shows (pml4 : Nat) (s : Spaces) (u : UserMemory Nat) : Prop where
  live : pml4 ∈ s.tops
  allocator : s.memory.allocator = u.allocator
  tables : ∀ page < userPages, ∀ n ≤ 2,
    ((n,page / 2^(9 * (n + 1))) ∈ u.tableKeys ↔ s.followFrom pml4 (tablePath page n) ≠ none)
  leaves : ∀ page < userPages, u.leaves page = s.leafAt pml4 page

namespace Shows
variable {kernelPageTable : Nat} {kernelMem : TableStore} {pool : Nat → Prop} {place : Nat → Option (Nat × Nat)} {s t : Spaces}
  {u v : UserMemory Nat} {pml4 page frame f table n : Nat} {entry : TableEntry}

/-- No table changes. -/
theorem of_tables (hu : Shows pml4 s u) (h : s.Sound kernelPageTable kernelMem pool place) (htops : t.tops = s.tops)
    (halloc : t.memory.allocator = v.allocator) (hmem : ∀ f r m, place f = some (r,m + 1) → t.memory.mem f = s.memory.mem f)
    (htables : v.tables = u.tables) (hleaves : v.leaves = u.leaves) : Shows pml4 t v where
  live := htops ▸ hu.live
  allocator := halloc
  tables page hpage n hn := by
    rw [h.followFrom_of_tables hu.live (by rw [length_tablePath]; omega) hmem,← hu.tables page hpage n hn,UserMemory.tableKeys,
      UserMemory.tableKeys,htables]
  leaves page hpage := by
    have hlen : (tablePath page 0).length ≤ 3 := length_tablePath.le
    rw [hleaves,hu.leaves page hpage,leafAt,leafAt,h.followFrom_of_tables hu.live hlen hmem]
    cases htable : s.followFrom pml4 (tablePath page 0) with
    | none => rfl
    | some table => rw [Option.bind_some,Option.bind_some,hmem table _ _ (h.followFrom_place hu.live hlen htable)]

/-- A frame is taken and zeroed. No program maps it. -/
theorem take (hu : Shows pml4 s u) (h : s.Sound kernelPageTable kernelMem pool place) (ha : u.allocateFrame = some (frame,v)) :
    ∃ t, Runs kernelPageTable pml4 s t ∧ Shows pml4 t v ∧ t.tops = s.tops ∧ t.held = insert frame s.held ∧ frame ∉ s.held ∧
      (∀ j, t.memory.mem frame j = .unused) ∧ ¬ t.Maps frame ∧ (∀ f, t.Maps f → s.Maps f) ∧
      ∀ path, path.length ≤ 3 → t.followFrom pml4 path = s.followFrom pml4 path := by
  obtain ⟨⟨frame',allocator⟩,halloc,heq⟩ := Option.map_eq_some_iff.mp ha
  cases heq
  rw [← hu.allocator] at halloc
  have hfree : frame ∈ s.memory.allocator.available :=
    MemoryMapFrameAllocator.available_of_allocateFrame halloc ▸ Multiset.mem_cons_self _ _
  have hnew : frame ∉ s.held := Multiset.disjoint_left.mp (Multiset.nodup_add.mp h.nodup).2.2 hfree
  have hnone : place frame = none := h.apart frame (Multiset.mem_add.mpr (.inl hfree))
  have hhold : step kernelPageTable .hold s =
      some { s with memory := { s.memory with allocator }, held := insert frame s.held } := by
    rw [step,halloc]
    rfl
  have hheld : frame ∈ insert frame s.held := Finset.mem_insert_self frame _
  obtain ⟨t,ht⟩ : ∃ t : Spaces,
      t = ⟨⟨Function.update s.memory.mem frame fun _ => .unused,allocator⟩,s.tops,insert frame s.held⟩ := ⟨_,rfl⟩
  have hfill : step kernelPageTable (.fill frame fun _ => .unused)
      { s with memory := { s.memory with allocator }, held := insert frame s.held } = some t := by
    rw [step,if_pos hheld,ht]
  have hmem : ∀ f r m, place f = some (r,m + 1) → t.memory.mem f = s.memory.mem f := by
    intro f r m hf
    rw [ht]
    refine Function.update_of_ne ?_ ..
    rintro rfl
    exact Option.some_ne_none _ (hf.symm.trans hnone)
  have htops : t.tops = s.tops := by rw [ht]
  refine ⟨t,(Runs.step hhold trivial (.inl rfl)).trans (Runs.step hfill trivial (.inl rfl)),hu.of_tables h htops ?_ hmem rfl rfl,htops,
    by rw [ht],hnew,fun j => ?_,fun hf => h.maps_not_free (h.maps_of_tables htops hmem hf) hfree,fun _ => h.maps_of_tables htops hmem,
    fun _ hlen => h.followFrom_of_tables hu.live hlen hmem⟩
  · rw [ht]
  · rw [ht]
    show Function.update s.memory.mem frame (fun _ => .unused) frame j = .unused
    rw [Function.update_self]

/-- A held frame that no program maps is given back. -/
theorem giveBack (hu : Shows pml4 s u) (h : s.Sound kernelPageTable kernelMem pool place) (hheld : frame ∈ s.held)
    (hunmapped : ¬ s.Maps frame) : ∃ t, Runs kernelPageTable pml4 s t ∧ Shows pml4 t (u.deallocateFrame frame) ∧
      t.held = s.held.erase frame ∧ ∀ f, t.Maps f → s.Maps f := by
  obtain ⟨t,ht⟩ : ∃ t : Spaces, t = { s with
      memory := { s.memory with allocator := s.memory.allocator.deallocateFrame frame }, held := s.held.erase frame } := ⟨_,rfl⟩
  have hrelease : step kernelPageTable (.release frame) s = some t := by
    rw [step,if_pos hheld,ht]
  have htops : t.tops = s.tops := by rw [ht]
  have hmem : ∀ f r m, place f = some (r,m + 1) → t.memory.mem f = s.memory.mem f := fun _ _ _ _ => by rw [ht]
  refine ⟨t,.step hrelease hunmapped (.inl rfl),hu.of_tables h htops ?_ hmem rfl rfl,by rw [ht],fun f => h.maps_of_tables htops hmem⟩
  rw [ht,UserMemory.deallocateFrame,← hu.allocator]

theorem tableAt_leaf (hu : Shows pml4 s u) (htable : s.followFrom pml4 (tablePath page 0) = some table) :
    s.tableAt pml4 (tablePath page 0) (leafIndex page) = some table := by
  refine tableAt_eq hu.live length_tablePath.le (fun hnil => ?_) htable
  have hlen := congrArg List.length hnil
  rw [length_tablePath] at hlen
  cases hlen

theorem leaf_eq (hu : Shows pml4 s u) (hpage : page < userPages) (htable : s.followFrom pml4 (tablePath page 0) = some table) :
    u.leaves page = leafOf (s.memory.mem table (leafIndex page)) := by
  rw [hu.leaves page hpage,leafAt,htable,Option.bind_some]

/-- A page that is mapped is a present entry of a last table. -/
theorem leaf_eq_some {e : PageTableEntry Nat} (hu : Shows pml4 s u) (hpage : page < userPages) (hleaf : u.leaves page = some e) :
    ∃ table, s.followFrom pml4 (tablePath page 0) = some table ∧ (s.memory.mem table (leafIndex page)).flags.present = true ∧
      e = ⟨(s.memory.mem table (leafIndex page)).addr,(s.memory.mem table (leafIndex page)).flags⟩ := by
  rw [hu.leaves page hpage,leafAt] at hleaf
  obtain ⟨table,htable,hleaf⟩ := Option.bind_eq_some_iff.mp hleaf
  rw [leafOf] at hleaf
  split_ifs at hleaf with hpresent
  exact ⟨table,htable,hpresent,(Option.some.inj hleaf).symm⟩

theorem unused_of_leaf (hu : Shows pml4 s u) (h : s.Sound kernelPageTable kernelMem pool place) (hpage : page < userPages)
    (htable : s.followFrom pml4 (tablePath page 0) = some table) (hleaf : u.leaves page = none) :
    s.memory.mem table (leafIndex page) = .unused := by
  rw [hu.leaf_eq hpage htable,leafOf] at hleaf
  split_ifs at hleaf with hpresent
  have hplace := h.followFrom_place hu.live length_tablePath.le htable
  rw [length_tablePath] at hplace
  exact (h.used _ _ _ _ hplace fun hthree => absurd hthree (by decide)).resolve_right fun hno => hpresent hno.1

/-- One entry of a last table changes. -/
theorem setLeaf (hu : Shows pml4 s u) (h : s.Sound kernelPageTable kernelMem pool place) (hpage : page < userPages)
    (htable : s.followFrom pml4 (tablePath page 0) = some table) (htops : t.tops = s.tops)
    (hmem : t.memory.mem = s.memory.mem.setEntry table (leafIndex page) entry) (halloc : t.memory.allocator = v.allocator)
    (htables : v.tables = u.tables) (hleaves : v.leaves = Function.update u.leaves page (leafOf entry)) : Shows pml4 t v where
  live := htops ▸ hu.live
  allocator := halloc
  tables page' hpage' n hn := by
    have hlen : (tablePath page' n).length ≤ 3 := by
      rw [length_tablePath]
      omega
    rw [h.followFrom_of_leaf hu.live hu.live length_tablePath htable hmem hlen,← hu.tables page' hpage' n hn,UserMemory.tableKeys,
      UserMemory.tableKeys,htables]
  leaves page' hpage' := by
    rw [hleaves,leafAt,h.followFrom_of_leaf hu.live hu.live length_tablePath htable hmem length_tablePath.le]
    by_cases heq : page' = page
    · rw [heq,Function.update_self,htable,Option.bind_some,hmem,setEntry_self]
    · rw [Function.update_of_ne heq,hu.leaves page' hpage',leafAt]
      cases htable' : s.followFrom pml4 (tablePath page' 0) with
      | none => rfl
      | some table' =>
        rw [Option.bind_some,Option.bind_some,hmem,setEntry_of_ne]
        refine not_and_or.mp fun hsame => heq ?_
        obtain ⟨rfl,hindex⟩ := hsame
        obtain ⟨-,hpath⟩ := h.tiers.follow_inj (h.top_place hu.live) (h.top_place hu.live) htable' htable
        exact page_of_leaf hpage' hpage hpath hindex

section Tables
variable {q : Nat} {path : List TableIndex}

/-- The entry that leads to a new table. -/
def tableEntry (frame : Nat) : TableEntry := ⟨frame,{ present := true, writable := true, userAccessible := true },false,0⟩

/-- An entry that leads to no table is unused. -/
theorem unused_of_missing (hu : Shows pml4 s u) (h : s.Sound kernelPageTable kernelMem pool place) (hpage : page < userPages) (hn : n ≤ 2)
    (htable : s.followFrom pml4 (tablePath page (n + 1)) = some table) (hmissing : s.followFrom pml4 (tablePath page n) = none) :
    s.memory.mem table (tableIndex (page * pageSize) (n + 1)) = .unused := by
  have hplace := h.followFrom_place hu.live (by rw [length_tablePath]; omega) htable
  rw [length_tablePath,show 3 - (3 - (n + 1)) + 1 = n + 2 by omega] at hplace
  have huser : n + 1 = 3 → (tableIndex (page * pageSize) (n + 1)).val < levelFourKernelEntriesStart :=
    fun hthree => tablePath_user hpage (Nat.succ.inj hthree)
  refine (h.used table pml4 (n + 1) _ hplace huser).resolve_right fun hno => ?_
  have hbelow : entryBelow s.held s.memory.mem (n + 1) table (tableIndex (page * pageSize) (n + 1)) = some _ :=
    (entryBelow_succ huser).trans (child_eq_some.mpr ⟨hno.1,hno.2 (Nat.succ_ne_zero n),rfl⟩)
  have hfound := (follow_concat (by rw [length_tablePath]; omega) htable).trans hbelow
  rw [← tablePath_succ hn] at hfound
  exact Option.some_ne_none _ (hfound.symm.trans hmissing)

/-- A new table is hung where one was missing. -/
theorem hangTable (hu : Shows pml4 s u) (h : s.Sound kernelPageTable kernelMem pool place) (hpage : page < userPages) (hn : n ≤ 2)
    (htable : s.followFrom pml4 (tablePath page (n + 1)) = some table) (hkey : (n,page / 2^(9 * (n + 1))) ∉ u.tableKeys)
    (hheld : frame ∈ s.held) (hempty : ∀ j, s.memory.mem frame j = .unused) (hunmapped : ¬ s.Maps frame) :
    ∃ t, Runs kernelPageTable pml4 s t ∧ Shows pml4 t { u with tables := ((n,page / 2^(9 * (n + 1))),frame) :: u.tables } ∧
      t.held = s.held.erase frame ∧ (∀ f, t.Maps f → s.Maps f) ∧ t.followFrom pml4 (tablePath page n) = some frame := by
  have hmissing : s.followFrom pml4 (tablePath page n) = none := not_not.mp fun hne => hkey ((hu.tables page hpage n hn).mpr hne)
  have huser : tablePath page (n + 1) = [] → (tableIndex (page * pageSize) (n + 1)).val < levelFourKernelEntriesStart := by
    intro hnil
    have hzero := congrArg List.length hnil
    rw [length_tablePath,List.length_nil] at hzero
    exact tablePath_user hpage (by omega)
  obtain ⟨t,ht⟩ : ∃ t : Spaces,
      t = { s.setEntry table (tableIndex (page * pageSize) (n + 1)) (tableEntry frame) with held := s.held.erase frame } := ⟨_,rfl⟩
  have hl : Linked s t pml4 (tablePath page (n + 1)) table (tableIndex (page * pageSize) (n + 1)) (tableEntry frame) :=
    ⟨by rw [length_tablePath]; omega,huser,htable,hu.unused_of_missing h hpage hn htable hmissing,rfl,rfl,hheld,hempty,
      by rw [ht]; rfl,by rw [ht]; rfl⟩
  have hlink : step kernelPageTable (.link pml4 (tablePath page (n + 1)) (tableIndex (page * pageSize) (n + 1)) (tableEntry frame)) s =
      some t := by
    rw [step,tableAt_eq hu.live (Nat.le_succ_of_le hl.short) huser htable,Option.bind_some,
      if_pos ⟨hl.unused,rfl,rfl,hheld,fun _ => hempty⟩,ht]
    rfl
  have hfollow {path : List TableIndex} (hshort : path.length ≤ 3) :
      t.followFrom pml4 path = if pml4 = pml4 ∧ path = tablePath page n then some frame else s.followFrom pml4 path := by
    rw [tablePath_succ hn]
    exact h.followFrom_of_link hl hu.live hu.live hshort
  have hthree {page m : Nat} : (tablePath page m).length ≤ 3 := by
    rw [length_tablePath]
    omega
  refine ⟨t,.step hlink hunmapped (.inr rfl),⟨hl.tops ▸ hu.live,?_,fun page' hpage' m hm => ?_,fun page' hpage' => ?_⟩,by rw [ht],
    fun f => h.maps_of_link hl hu.live,by rw [hfollow hthree,if_pos ⟨rfl,rfl⟩]⟩
  · rw [ht]
    exact hu.allocator
  · rw [hfollow hthree,UserMemory.tableKeys,List.map_cons,List.toFinset_cons,Finset.mem_insert]
    split_ifs with hsame
    · obtain ⟨rfl,hkeys⟩ := tablePath_inj hpage' hpage hm hn hsame.2
      exact iff_of_true (.inl (by rw [hkeys])) (Option.some_ne_none _)
    · rw [or_iff_right]
      · exact hu.tables page' hpage' m hm
      · intro heq
        obtain ⟨rfl,hkeys⟩ := Prod.mk.inj heq
        exact hsame ⟨rfl,tablePath_of_key hm hkeys⟩
  · have hold := hu.leaves page' hpage'
    rw [leafAt] at hold
    rw [leafAt,hfollow hthree]
    show u.leaves page' = _
    split_ifs with hsame
    · have hfresh : t.memory.mem frame (leafIndex page') = .unused := h.linked_empty hl hu.live _
      rw [hold,hsame.2,hmissing,Option.bind_some,hfresh,Option.bind_none]
      rfl
    · rw [hold]
      cases htable' : s.followFrom pml4 (tablePath page' 0) with
      | none => rfl
      | some b => rw [Option.bind_some,Option.bind_some,h.linked_last hl hu.live hu.live length_tablePath htable']

/-- The tables on the way to a page that the n-th one leads to. -/
def tablesBelow (page : Nat) : Nat → List TableKey
  | 0 => []
  | n + 1 => (n,page / 2^(9 * (n + 1))) :: tablesBelow page n

/-- Each table that is made is hung from the one above it. -/
theorem createTables (hu : Shows pml4 s u) (h : s.Sound kernelPageTable kernelMem pool place) (hpage : page < userPages) (hn : n ≤ 3)
    (htable : s.followFrom pml4 (tablePath page n) = some table) :
    ∃ t, Runs kernelPageTable pml4 s t ∧ Shows pml4 t (UserMemory.createTables (tablesBelow page n) u).2 ∧ t.held = s.held ∧
      (∀ f, t.Maps f → s.Maps f) ∧
      ((UserMemory.createTables (tablesBelow page n) u).1 = true → t.followFrom pml4 (tablePath page 0) ≠ none) := by
  induction n generalizing s u place table with
  | zero => exact ⟨s,.refl s,hu,rfl,fun _ => id,fun _ => htable ▸ Option.some_ne_none _⟩
  | succ n ih =>
    rw [tablesBelow,UserMemory.createTables]
    split_ifs with hkey
    · obtain ⟨b,hb⟩ := Option.ne_none_iff_exists'.mp ((hu.tables page hpage n (by omega)).mp hkey)
      exact ih hu h (by omega) hb
    · cases ha : u.allocateFrame with
      | none => exact ⟨s,.refl s,hu,rfl,fun _ => id,fun hok => absurd hok Bool.false_ne_true⟩
      | some x =>
        obtain ⟨frame,v⟩ := x
        obtain ⟨w,hrun,hw,-,hheld,hnew,hempty,hunmapped,hmaps,hfollow⟩ := hu.take h ha
        obtain ⟨place',hs⟩ := hrun.sound h
        have hmissing : (n,page / 2^(9 * (n + 1))) ∉ v.tableKeys := by
          rw [UserMemory.tableKeys,(UserMemory.available_of_allocateFrame ha).2.1]
          exact hkey
        obtain ⟨w',hrun',hw',hheld',hmaps',hnext⟩ := hw.hangTable hs hpage (by omega)
          ((hfollow _ (by rw [length_tablePath]; omega)).trans htable) hmissing (hheld ▸ Finset.mem_insert_self frame _) hempty hunmapped
        obtain ⟨place'',hs'⟩ := hrun'.sound hs
        obtain ⟨t,hrun'',ht,hheld'',hmaps'',hlast⟩ := ih hw' hs' (by omega) hnext
        refine ⟨t,(hrun.trans hrun').trans hrun'',ht,?_,fun f hf => hmaps f (hmaps' f (hmaps'' f hf)),hlast⟩
        rw [hheld'',hheld',hheld,Finset.erase_insert hnew]

end Tables

section Pages
variable {flags : PageTableFlags} {e : PageTableEntry Nat} {path : List TableIndex}

/-- A step that sets the entry of a page. -/
private theorem leafStep (hu : Shows pml4 s u) (h : s.Sound kernelPageTable kernelMem pool place) (hpage : page < userPages)
    (htable : s.followFrom pml4 (tablePath page 0) = some table) (held : Finset Nat) (leaf : Option (PageTableEntry Nat))
    (hleaf : leafOf entry = leaf) :
    Shows pml4 { s.setEntry table (leafIndex page) entry with held } { u with leaves := Function.update u.leaves page leaf } ∧
      ∀ f, ({ s.setEntry table (leafIndex page) entry with held } : Spaces).Maps f →
        s.Maps f ∨ entry.flags.present = true ∧ entry.addr = f := by
  obtain ⟨t,ht⟩ : ∃ t : Spaces, t = { s.setEntry table (leafIndex page) entry with held } := ⟨_,rfl⟩
  have hmem : t.memory.mem = s.memory.mem.setEntry table (leafIndex page) entry := by rw [ht]; rfl
  have htops : t.tops = s.tops := by rw [ht]; rfl
  have halloc : t.memory.allocator = u.allocator := by rw [ht]; exact hu.allocator
  rw [← ht]
  exact ⟨hu.setLeaf h hpage htable htops hmem halloc rfl (by rw [hleaf]),
    fun f => h.maps_of_leaf hu.live length_tablePath htable htops hmem⟩

/-- A page that is not mapped gets a held frame. -/
theorem linkLeaf (hu : Shows pml4 s u) (h : s.Sound kernelPageTable kernelMem pool place) (hpage : page < userPages)
    (htable : s.followFrom pml4 (tablePath page 0) ≠ none) (hleaf : u.leaves page = none) (hflags : flags.present = true)
    (hheld : frame ∈ s.held) (hunmapped : ¬ s.Maps frame) :
    ∃ t, Runs kernelPageTable pml4 s t ∧ Shows pml4 t { u with leaves := Function.update u.leaves page (some ⟨frame,flags⟩) } ∧
      t.held = s.held.erase frame := by
  obtain ⟨table,htable⟩ := Option.ne_none_iff_exists'.mp htable
  have hunused := hu.unused_of_leaf h hpage htable hleaf
  have hstep : step kernelPageTable (.link pml4 (tablePath page 0) (leafIndex page) ⟨frame,flags,false,0⟩) s =
      some { s.setEntry table (leafIndex page) ⟨frame,flags,false,0⟩ with held := s.held.erase frame } := by
    rw [step,hu.tableAt_leaf htable,Option.bind_some,
      if_pos ⟨hunused,hflags,rfl,hheld,fun hlt => absurd hlt (by rw [length_tablePath]; decide)⟩]
  exact ⟨_,.step hstep hunmapped (.inr rfl),(hu.leafStep h hpage htable _ _ (leafOf_present hflags)).1,rfl⟩

/-- It gets a frame that the kernel goes on holding. -/
theorem shareLeaf (hu : Shows pml4 s u) (h : s.Sound kernelPageTable kernelMem pool place) (hpage : page < userPages)
    (htable : s.followFrom pml4 (tablePath page 0) ≠ none) (hleaf : u.leaves page = none) (hflags : flags.present = true)
    (hheld : frame ∈ s.held) :
    ∃ t, Runs kernelPageTable pml4 s t ∧ Shows pml4 t { u with leaves := Function.update u.leaves page (some ⟨frame,flags⟩) } ∧
      t.held = s.held := by
  obtain ⟨table,htable⟩ := Option.ne_none_iff_exists'.mp htable
  have hunused := hu.unused_of_leaf h hpage htable hleaf
  have hstep : step kernelPageTable (.share pml4 (tablePath page 0) (leafIndex page) ⟨frame,flags,false,0⟩) s =
      some (s.setEntry table (leafIndex page) ⟨frame,flags,false,0⟩) := by
    rw [step,hu.tableAt_leaf htable,Option.bind_some,
      if_pos ⟨length_tablePath,hunused,hflags,hheld⟩]
  exact ⟨_,.step hstep trivial (.inr rfl),(hu.leafStep h hpage htable s.held _ (leafOf_present hflags)).1,rfl⟩

/-- A page that is mapped gets other flags. -/
theorem allowLeaf (hu : Shows pml4 s u) (h : s.Sound kernelPageTable kernelMem pool place) (hpage : page < userPages)
    (hleaf : u.leaves page = some e) (hflags : flags.present = true) :
    ∃ t, Runs kernelPageTable pml4 s t ∧ Shows pml4 t (UserMemory.updateFlags page flags u) ∧ t.held = s.held := by
  obtain ⟨table,htable,hpresent,rfl⟩ := hu.leaf_eq_some hpage hleaf
  have hstep : step kernelPageTable (.allow pml4 (tablePath page 0) (leafIndex page) flags) s =
      some (s.setEntry table (leafIndex page) { s.memory.mem table (leafIndex page) with flags }) := by
    rw [step,hu.tableAt_leaf htable,Option.bind_some,
      if_pos ⟨hpresent,hflags⟩]
  have hentry : leafOf { s.memory.mem table (leafIndex page) with flags } = _ := leafOf_present hflags
  have hshows := (hu.leafStep h hpage htable s.held _ hentry).1
  rw [UserMemory.updateFlags,hleaf]
  exact ⟨_,.step hstep trivial (.inr rfl),hshows,rfl⟩

/-- A page is unmapped. No program maps its frame any more if the kernel did not hold it. -/
theorem unmapLeaf (hu : Shows pml4 s u) (h : s.Sound kernelPageTable kernelMem pool place) (hpage : page < userPages)
    (hleaf : u.leaves page = some e) :
    ∃ t, Runs kernelPageTable pml4 s t ∧ Shows pml4 t { u with leaves := Function.update u.leaves page none } ∧
      t.held = insert e.frame s.held ∧ (e.frame ∉ s.held → ¬ t.Maps e.frame) := by
  obtain ⟨table,htable,hpresent,rfl⟩ := hu.leaf_eq_some hpage hleaf
  obtain ⟨t,ht⟩ : ∃ t : Spaces, t = { s.setEntry table (leafIndex page) .unused with
      held := insert (s.memory.mem table (leafIndex page)).addr s.held } := ⟨_,rfl⟩
  have hstep : step kernelPageTable (.unmap pml4 (tablePath page 0) (leafIndex page)) s = some t := by
    rw [step,hu.tableAt_leaf htable,Option.bind_some,
      if_pos ⟨length_tablePath,hpresent⟩,ht]
  refine ⟨t,.step hstep trivial (.inr rfl),?_,by rw [ht],fun hheld => ?_⟩
  · rw [ht]
    exact (hu.leafStep h hpage htable _ _ rfl).1
  · exact h.not_maps_of_unmap hu.live length_tablePath htable (by rw [ht]; rfl) (by rw [ht]; rfl) hpresent hheld

end Pages

section Calls
variable {flags : PageTableFlags} {ownership : FrameOwnership} {first start : Nat}

/-- The memory of a process without its bytes. -/
private theorem congr (hu : Shows pml4 s u) (halloc : v.allocator = u.allocator) (htables : v.tables = u.tables)
    (hleaves : v.leaves = u.leaves) : Shows pml4 s v :=
  ⟨hu.live,halloc ▸ hu.allocator,by rw [UserMemory.tableKeys,htables]; exact hu.tables,hleaves ▸ hu.leaves⟩

/-- The tables on the way to a page are made, which changes no page. -/
private theorem tables_of_mapTo (hu : Shows pml4 s u) (h : s.Sound kernelPageTable kernelMem pool place) (hpage : page < userPages) :
    ∃ t, Runs kernelPageTable pml4 s t ∧ Shows pml4 t (UserMemory.createTables (tablesAbove page) u).2 ∧ t.held = s.held ∧
      (∀ f, t.Maps f → s.Maps f) ∧ (UserMemory.createTables (tablesAbove page) u).2.leaves = u.leaves ∧
      ((UserMemory.createTables (tablesAbove page) u).1 = true → t.followFrom pml4 (tablePath page 0) ≠ none) := by
  obtain ⟨-,-,hleaves,-⟩ := UserMemory.createTables_cases (tablesAbove page) u
  obtain ⟨t,hrun,ht,hheld,hmaps,hlast⟩ := hu.createTables h hpage (Nat.le_refl 3) follow_nil
  exact ⟨t,hrun,ht,hheld,hmaps,hleaves,hlast⟩

/-- A round of map_virt_mem_region. What it maps anew is a frame that the kernel did not hold. -/
theorem mapNewPage (hu : Shows pml4 s u) (h : s.Sound kernelPageTable kernelMem pool place) (hpage : page < userPages)
    (hflags : flags.present = true) :
    ∃ t, Runs kernelPageTable pml4 s t ∧ Shows pml4 t (u.mapNewPage page flags).2 ∧ t.held = s.held ∧
      ∀ p e, (u.mapNewPage page flags).2.leaves p = some e →
        (∃ e', u.leaves p = some e' ∧ e'.frame = e.frame) ∨ e.frame ∉ s.held := by
  rw [UserMemory.mapNewPage]
  cases ha : u.allocateFrame with
  | none => exact ⟨s,.refl s,hu,rfl,fun p e hp => .inl ⟨e,hp,rfl⟩⟩
  | some x =>
    obtain ⟨frame,v⟩ := x
    obtain ⟨w,hrun,hw,-,hheld,hnew,-,hunmapped,-,-⟩ := hu.take h ha
    obtain ⟨place₁,hs₁⟩ := hrun.sound h
    have hv : v.leaves = u.leaves := (UserMemory.available_of_allocateFrame ha).2.2.1
    obtain ⟨t,hrun',ht,hheld',hmaps,hleaves,hlast⟩ := (hw.congr (v := v.zeroFrame frame) rfl rfl rfl).tables_of_mapTo hs₁ hpage
    obtain ⟨place₂,hs₂⟩ := hrun'.sound hs₁
    have hmem : frame ∈ t.held := by
      rw [hheld',hheld]
      exact Finset.mem_insert_self frame _
    have hback : t.held.erase frame = s.held := by rw [hheld',hheld,Finset.erase_insert hnew]
    have hmap (flags : PageTableFlags) : Mapper.mapTo page frame flags (v.zeroFrame frame) =
        UserMemory.mapTo page frame flags (v.zeroFrame frame) := rfl
    simp only [hmap,UserMemory.mapTo]
    generalize UserMemory.createTables (tablesAbove page) (v.zeroFrame frame) = r at *
    have hold : r.2.leaves = u.leaves := hleaves.trans hv
    have hrun₂ := hrun.trans hrun'
    have hunmapped₂ : ¬ t.Maps frame := fun hf => hunmapped (hmaps frame hf)
    obtain ⟨_ | _,v₂⟩ := r
    · obtain ⟨t₃,hrun₃,ht₃,hheld₃,-⟩ := ht.giveBack hs₂ hmem hunmapped₂
      exact ⟨t₃,hrun₂.trans hrun₃,ht₃,hheld₃.trans hback,fun p e hp => .inl ⟨e,hold ▸ hp,rfl⟩⟩
    · dsimp only at hold hlast ht ⊢
      cases hleaf : v₂.leaves page with
      | some existing =>
        obtain ⟨t₃,hrun₃,ht₃,hheld₃,-⟩ := ht.giveBack hs₂ hmem hunmapped₂
        obtain ⟨place₃,hs₃⟩ := hrun₃.sound hs₂
        have hmerged : ((UserMemory.getPageFlags page (v₂.deallocateFrame frame)).merge { flags with userAccessible := true }).present =
            true := by
          rw [PageTableFlags.merge,hflags,Bool.or_true]
        obtain ⟨t₄,hrun₄,ht₄,hheld₄⟩ := ht₃.allowLeaf hs₃ hpage hleaf hmerged
        refine ⟨t₄,(hrun₂.trans hrun₃).trans hrun₄,ht₄,hheld₄.trans (hheld₃.trans hback),fun p e hp => .inl ?_⟩
        change Function.update v₂.leaves page ((v₂.leaves page).map _) p = some e at hp
        rw [hleaf,Function.update_apply] at hp
        split_ifs at hp with hpe
        · cases hp
          exact ⟨existing,by rw [hpe,← hold]; exact hleaf,rfl⟩
        · exact ⟨e,hold ▸ hp,rfl⟩
      | none =>
        have huser : ({ flags with userAccessible := true } : PageTableFlags).present = true := hflags
        obtain ⟨t₃,hrun₃,ht₃,hheld₃⟩ := ht.linkLeaf hs₂ hpage (hlast rfl) hleaf huser hmem hunmapped₂
        refine ⟨t₃,hrun₂.trans hrun₃,ht₃,hheld₃.trans hback,fun p e hp => ?_⟩
        change Function.update v₂.leaves page _ p = some e at hp
        rw [Function.update_apply] at hp
        split_ifs at hp
        · cases hp
          exact .inr hnew
        · exact .inl ⟨e,hold ▸ hp,rfl⟩

/-- The pages of a range map frames that the kernel holds exactly if the range borrows them. -/
def Holds (held : Finset Nat) (ownership : FrameOwnership) (u : UserMemory Nat) (first n : Nat) : Prop :=
  ∀ page, first ≤ page → page < first + n → ∀ e, u.leaves page = some e → (e.frame ∈ held ↔ ownership = .borrowed)

/-- Pages are unmapped, and those that the process owns are given back. -/
theorem unmapPages (hu : Shows pml4 s u) (h : s.Sound kernelPageTable kernelMem pool place) (hlast : first + n ≤ userPages)
    (hheld : Holds s.held ownership u first n) :
    ∃ t, Runs kernelPageTable pml4 s t ∧ Shows pml4 t (u.unmapPages ownership first n) ∧ t.held = s.held := by
  induction n generalizing s u place first with
  | zero => exact ⟨s,.refl s,hu,rfl⟩
  | succ n ih =>
    have hpage : first < userPages := by omega
    rw [UserMemory.unmapPages]
    cases hleaf : u.leaves first with
    | none =>
      have hnone : u.unmapPage ownership first = u := by
        rw [UserMemory.unmapPage,Mapper.unmap_eq_none first u fun e he => by rw [hleaf] at he; cases he]
      rw [hnone]
      exact ih hu h (by omega) fun page hle hlt => hheld page (by omega) (by omega)
    | some e =>
      obtain ⟨table,-,hpresent,rfl⟩ := hu.leaf_eq_some hpage hleaf
      obtain ⟨w,hrun,hw,hwheld,hunmapped⟩ := hu.unmapLeaf h hpage hleaf
      obtain ⟨place',hs⟩ := hrun.sound h
      have hiff := hheld first (Nat.le_refl _) (by omega) _ hleaf
      have hrest {v : UserMemory Nat} (hv : v.leaves = Function.update u.leaves first none) : Holds s.held ownership v (first + 1) n := by
        intro page hle hlt e he
        rw [hv,Function.update_of_ne (by omega)] at he
        exact hheld page (by omega) (by omega) e he
      rw [UserMemory.unmapPage,Mapper.unmap_eq_some first u _ hleaf hpresent]
      dsimp only
      split_ifs with howned
      · have hnot : (s.memory.mem table (leafIndex first)).addr ∉ s.held := by
          rw [hiff,howned]
          decide
        obtain ⟨w',hrun',hw',hwheld',-⟩ := hw.giveBack hs (hwheld ▸ Finset.mem_insert_self ..) (hunmapped hnot)
        obtain ⟨place'',hs'⟩ := hrun'.sound hs
        have hback : w'.held = s.held := by rw [hwheld',hwheld,Finset.erase_insert hnot]
        obtain ⟨t,hrun'',ht,htheld⟩ := ih hw' hs' (by omega) (hback ▸ hrest rfl)
        exact ⟨t,(hrun.trans hrun').trans hrun'',ht,htheld.trans hback⟩
      · have hmem : (s.memory.mem table (leafIndex first)).addr ∈ s.held := by
          refine hiff.mpr ?_
          cases ownership with
          | owned => exact absurd rfl howned
          | borrowed => rfl
        have hback : w.held = s.held := by rw [hwheld,Finset.insert_eq_of_mem hmem]
        obtain ⟨t,hrun',ht,htheld⟩ := ih hw hs (by omega) (hback ▸ hrest rfl)
        exact ⟨t,hrun.trans hrun',ht,htheld.trans hback⟩

/-- The pages before the one that failed are unmapped. -/
theorem rollbackPartialMapping (hu : Shows pml4 s u) (h : s.Sound kernelPageTable kernelMem pool place) (hlast : start + n ≤ userPages)
    (hheld : Holds s.held .owned u start n) :
    ∃ t, Runs kernelPageTable pml4 s t ∧ Shows pml4 t (u.rollbackPartialMapping start (start + n) flags) ∧ t.held = s.held := by
  rw [UserMemory.rollbackPartialMapping_eq]
  exact hu.unmapPages h hlast hheld

/-- The loop over the pages, whatever round it fails in. -/
theorem mapPages (hu : Shows pml4 s u) (h : s.Sound kernelPageTable kernelMem pool place) (hflags : flags.present = true)
    (hfirst : start ≤ page) (hlast : page + n ≤ userPages) (hheld : Holds s.held .owned u start (page + n - start)) :
    ∃ t, Runs kernelPageTable pml4 s t ∧ Shows pml4 t (UserMemory.mapPages start flags page n u).2 ∧ t.held = s.held := by
  induction n generalizing s u place page with
  | zero => exact ⟨s,.refl s,hu,rfl⟩
  | succ n ih =>
    obtain ⟨w,hrun,hw,hwheld,hleaves⟩ := hu.mapNewPage h (show page < userPages by omega) hflags
    obtain ⟨place',hs⟩ := hrun.sound h
    have hown : Holds w.held .owned (u.mapNewPage page flags).2 start (page + (n + 1) - start) := by
      intro p hle hlt e he
      rw [hwheld]
      obtain ⟨e',he',heq⟩ | hnot := hleaves p e he
      · rw [← heq]
        exact hheld p hle hlt e' he'
      · exact iff_of_false hnot (by decide)
    rw [UserMemory.mapPages]
    generalize u.mapNewPage page flags = r at *
    obtain ⟨_ | _,v⟩ := r <;> dsimp only at hw hown ⊢
    · obtain ⟨k,rfl⟩ := Nat.exists_eq_add_of_le hfirst
      obtain ⟨t,hrun',ht,htheld⟩ := hw.rollbackPartialMapping (n := k) hs (by omega) fun p hle hlt => hown p hle (by omega)
      exact ⟨t,hrun.trans hrun',ht,htheld.trans hwheld⟩
    · obtain ⟨t,hrun',ht,htheld⟩ := ih hw hs (Nat.le_succ_of_le hfirst) (by omega) fun p hle hlt => hown p hle (by omega)
      exact ⟨t,hrun.trans hrun',ht,htheld.trans hwheld⟩

/-- What map_virt_mem_region does is a run, unless a page of the range maps a frame that the kernel holds. -/
theorem mapVirtMemRegion (hu : Shows pml4 s u) (h : s.Sound kernelPageTable kernelMem pool place) {virtAddr sizeBytes : Nat}
    (hflags : flags.present = true) (hlast : virtAddr + sizeBytes ≤ userPages * pageSize)
    (hheld : Holds s.held .owned u (virtAddr / pageSize) (UserMemory.pageCount virtAddr sizeBytes)) :
    ∃ t, Runs kernelPageTable pml4 s t ∧ Shows pml4 t (u.mapVirtMemRegion virtAddr sizeBytes flags).2 ∧ t.held = s.held := by
  refine hu.mapPages h hflags (Nat.le_refl _) ?_ (by rwa [Nat.add_sub_cancel_left])
  unfold userPages pageSize at hlast
  unfold UserMemory.pageCount userPages pageSize
  omega

theorem unmapUserRegion (hu : Shows pml4 s u) (h : s.Sound kernelPageTable kernelMem pool place) {region : MappedMemoryRegion}
    (hlast : region.endVirt ≤ userPages * pageSize)
    (hheld : Holds s.held region.frameOwnership u (region.startVirt / pageSize) (UserMemory.pageCount region.startVirt region.sizeBytes)) :
    ∃ t, Runs kernelPageTable pml4 s t ∧ Shows pml4 t (u.unmapUserRegion region) ∧ t.held = s.held := by
  rw [UserMemory.unmapUserRegion]
  split_ifs
  · exact ⟨s,.refl s,hu,rfl⟩
  · refine hu.unmapPages h ?_ hheld
    unfold MappedMemoryRegion.endVirt userPages pageSize at hlast
    unfold UserMemory.pageCount userPages pageSize
    omega

/-- The frame of map_specific_frame is one that the kernel goes on holding. -/
theorem mapSpecificFrame (hu : Shows pml4 s u) (h : s.Sound kernelPageTable kernelMem pool place) (hpage : page < userPages)
    (hflags : flags.present = true) (hheld : frame ∈ s.held) :
    ∃ t, Runs kernelPageTable pml4 s t ∧ Shows pml4 t (u.mapSpecificFrame page frame flags).2 ∧ t.held = s.held := by
  obtain ⟨t,hrun,ht,htheld,-,hleaves,hlast⟩ := hu.tables_of_mapTo h hpage
  obtain ⟨place',hs⟩ := hrun.sound h
  have hmap (flags : PageTableFlags) : Mapper.mapTo page frame flags u = UserMemory.mapTo page frame flags u := rfl
  simp only [UserMemory.mapSpecificFrame,hmap,UserMemory.mapTo]
  generalize UserMemory.createTables (tablesAbove page) u = r at *
  have huser : ({ flags with userAccessible := true } : PageTableFlags).present = true := hflags
  obtain ⟨_ | _,v⟩ := r
  · exact ⟨t,hrun,ht,htheld⟩
  · dsimp only at hlast ht ⊢
    cases hleaf : v.leaves page with
    | none =>
      obtain ⟨t',hrun',ht',htheld'⟩ := ht.shareLeaf hs hpage (hlast rfl) hleaf huser (htheld ▸ hheld)
      exact ⟨t',hrun.trans hrun',ht',htheld'.trans htheld⟩
    | some existing =>
      dsimp only
      split_ifs
      · exact ⟨t,hrun,ht,htheld⟩
      · obtain ⟨t',hrun',ht',htheld'⟩ := ht.allowLeaf hs hpage hleaf huser
        exact ⟨t',hrun.trans hrun',ht',htheld'.trans htheld⟩

/-- The kernel comes to hold the frame of a page, which the page goes on mapping: the second view of a circular buffer maps it. -/
theorem lendPage {e : PageTableEntry Nat} (hu : Shows pml4 s u) (h : s.Sound kernelPageTable kernelMem pool place) (hpage : page < userPages)
    (hleaf : u.leaves page = some e) (hflags : e.flags.present = true) :
    ∃ t, Runs kernelPageTable pml4 s t ∧ Shows pml4 t u ∧ t.held = insert e.frame s.held := by
  obtain ⟨w,hrun,hw,hwheld,-⟩ := hu.unmapLeaf h hpage hleaf
  obtain ⟨place',hs⟩ := hrun.sound h
  have htable : w.followFrom pml4 (tablePath page 0) ≠ none := by
    refine (hw.tables page hpage 0 (by decide)).mp ((hu.tables page hpage 0 (by decide)).mpr ?_)
    obtain ⟨table,htable,-⟩ := hu.leaf_eq_some hpage hleaf
    exact htable ▸ Option.some_ne_none table
  obtain ⟨t,hrun',ht,htheld⟩ := hw.shareLeaf hs hpage htable (Function.update_self ..) hflags (hwheld ▸ Finset.mem_insert_self e.frame _)
  refine ⟨t,hrun.trans hrun',ht.congr rfl rfl ?_,htheld.trans hwheld⟩
  dsimp only
  rw [Function.update_idem,← hleaf,Function.update_eq_self]

end Calls

/-- An address space that was just made has no pages. -/
theorem of_create (h : s.Sound kernelPageTable kernelMem pool place) (hstep : Spaces.step kernelPageTable .create s = some t)
    (bytes : Nat → Nat → UInt8) :
    ∃ pml4 ∉ s.tops, t.tops = insert pml4 s.tops ∧ Shows pml4 t ⟨t.memory.allocator,[],fun _ => none,bytes⟩ := by
  obtain ⟨⟨pml4,memory⟩,hcreate,rfl⟩ := Option.map_eq_some_iff.mp hstep
  obtain ⟨hnone,-,hsound⟩ := h.create hcreate
  obtain ⟨-,-,hlow,-⟩ := PageTables.allocateNewAddressSpace_spec hcreate
  have hempty {page n : Nat} (hpage : page < userPages) (hn : n ≤ 2) :
      follow (entryBelow s.held memory.mem) 4 pml4 (tablePath page n) = none := by
    obtain ⟨rest,hpath⟩ : ∃ rest, tablePath page n = tableIndex (page * pageSize) 3 :: rest := tablePath_cons hn
    rw [hpath,follow,entryBelow_unused (hlow _ (tablePath_user hpage rfl)),Option.bind_none]
  refine ⟨pml4,fun hlive => ?_,rfl,⟨Finset.mem_insert_self pml4 _,rfl,fun page hpage n hn => ?_,fun page hpage => ?_⟩⟩
  · exact Option.some_ne_none _ ((h.top_place hlive).symm.trans hnone)
  · exact iff_of_false (Finset.notMem_empty _) (not_not.mpr (hempty hpage hn))
  · rw [leafAt,followFrom,hempty hpage (by decide),Option.bind_none]

/-- The processor finds the frame that the page maps. -/
theorem translate (hu : Shows pml4 s u) (h : s.Sound kernelPageTable kernelMem pool place) {v : Nat} (hv : v / pageSize < userPages) :
    (hardwareTranslate s.memory.mem pml4 v).map Prod.fst =
      (u.leaves (v / pageSize)).map fun e => e.frame * pageSize + v % pageSize := by
  have huser : (tableIndex v 3).val < levelFourKernelEntriesStart := by
    rw [← tableIndex_of_page]
    exact tablePath_user hv rfl
  rw [hardwareTranslate,h.hardwareWalk_fst (h.top_place hu.live) fun _ => huser,hu.leaves _ hv,leafAt,tablePath,leafIndex,
    tableIndex_of_page,indexPath_of_page,Option.map_bind]
  rfl

end Shows

section Reach
variable {kernelPageTable pml4 q v : Nat} {s₀ s t : Spaces} {acts : List SpaceAct}

/-- What a call does to an address space goes on with the run that led to it. -/
theorem Runs.reached (h : Runs kernelPageTable pml4 s t) (hcareful : stepsMeet (Spaces.step kernelPageTable) careful acts s₀)
    (hrun : steps (Spaces.step kernelPageTable) acts s₀ = some s) :
    ∃ more, stepsMeet (Spaces.step kernelPageTable) careful (acts ++ more) s₀ ∧
      steps (Spaces.step kernelPageTable) (acts ++ more) s₀ = some t ∧ ∀ a ∈ more, a.space = none ∨ a.space = some pml4 := by
  obtain ⟨more,hmore,hcareful',hspace⟩ := h
  refine ⟨more,stepsMeet_append hcareful fun u hu => ?_,(steps_append hrun).trans hmore,hspace⟩
  rw [hrun] at hu
  cases hu
  exact hcareful'

/-- The other address spaces translate as before. -/
theorem Runs.untouched (h : Runs kernelPageTable pml4 s t) (hstart : s₀.Start kernelPageTable)
    (hcareful : stepsMeet (Spaces.step kernelPageTable) careful acts s₀) (hrun : steps (Spaces.step kernelPageTable) acts s₀ = some s)
    (hq : q ∈ s.tops) (hne : q ≠ pml4) : hardwareTranslate t.memory.mem q v = hardwareTranslate s.memory.mem q v := by
  obtain ⟨more,hmore,hcareful',hspace⟩ := h
  refine (run_untouched hstart hcareful hrun hcareful' hmore hq fun a ha hsame => ?_).2.1 v
  rcases hspace a ha with hnone | hsome
  · exact Option.some_ne_none _ (hsame.symm.trans hnone)
  · exact hne (Option.some.inj (hsame.symm.trans hsome))

/-- A region of a new program: a run maps its pages, and the processor finds what map_virt_mem_region mapped. -/
theorem run_newRegion (hstart : s₀.Start kernelPageTable) (hcareful : stepsMeet (Spaces.step kernelPageTable) careful acts s₀)
    (hrun : steps (Spaces.step kernelPageTable) acts s₀ = some s) (hcreate : Spaces.step kernelPageTable .create s = some t)
    {virtAddr sizeBytes : Nat} {flags : PageTableFlags} (hflags : flags.present = true)
    (hlast : virtAddr + sizeBytes ≤ userPages * pageSize) (bytes : Nat → Nat → UInt8) :
    ∃ pml4 ∉ s.tops, ∃ more w, stepsMeet (Spaces.step kernelPageTable) careful (acts ++ more) s₀ ∧
      steps (Spaces.step kernelPageTable) (acts ++ more) s₀ = some w ∧
      ∀ v, v / pageSize < userPages → (hardwareTranslate w.memory.mem pml4 v).map Prod.fst =
        ((UserMemory.mapVirtMemRegion virtAddr sizeBytes flags ⟨t.memory.allocator,[],fun _ => none,bytes⟩).2.leaves (v / pageSize)).map
          fun e => e.frame * pageSize + v % pageSize := by
  obtain ⟨place,hs⟩ := run_sound hstart hcareful hrun
  obtain ⟨pml4,hnew,-,hshows⟩ := Shows.of_create hs hcreate bytes
  have hmade : Runs kernelPageTable pml4 s t := .step hcreate trivial (.inl rfl)
  obtain ⟨place',ht⟩ := hmade.sound hs
  obtain ⟨w,hmapped,hw,-⟩ := hshows.mapVirtMemRegion ht hflags hlast fun page _ _ e he => by cases he
  obtain ⟨place'',hsound⟩ := hmapped.sound ht
  obtain ⟨more,hmore,hreach,-⟩ := (hmade.trans hmapped).reached hcareful hrun
  exact ⟨pml4,hnew,more,w,hmore,hreach,fun v hv => hw.translate hsound hv⟩

end Reach
end Spaces
end MofuOS.Memory
