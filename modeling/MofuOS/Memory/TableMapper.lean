import MofuOS.Memory.MappedPages

/-! Page tables that make the tables above a page from the top down. -/
namespace MofuOS.Memory.UserMemory
variable {F : Type} {s t : UserMemory F} {page : Nat} {frame : F} {flags : PageTableFlags} {key : TableKey}

def createTables : List TableKey → UserMemory F → Bool × UserMemory F
  | [], s => (true,s)
  | key :: keys, s =>
    if key ∈ s.tableKeys then createTables keys s
    else match s.allocateFrame with
      | none => (false,s)
      | some (frame,s) => createTables keys { s with tables := (key,frame) :: s.tables }

/-- Tables made for a page that could not be mapped are kept. -/
def mapTo (page : Nat) (frame : F) (flags : PageTableFlags) (s : UserMemory F) :
    Except (MapToError F) Unit × UserMemory F :=
  match createTables (tablesAbove page) s with
  | (false,s) => (.error .frameAllocationFailed,s)
  | (true,s) =>
    match s.leaves page with
    | some existing => (.error (.pageAlreadyMapped existing.frame),s)
    | none => (.ok (),{ s with leaves := Function.update s.leaves page (some ⟨frame,flags⟩) })

def updateFlags (page : Nat) (flags : PageTableFlags) (s : UserMemory F) : UserMemory F :=
  { s with leaves := Function.update s.leaves page ((s.leaves page).map fun entry => { entry with flags }) }

def unmap (page : Nat) (s : UserMemory F) : Option F × UserMemory F :=
  match (s.leaves page).filter fun entry => entry.flags.present with
  | none => (none,s)
  | some entry => (some entry.frame,{ s with leaves := Function.update s.leaves page none })

private theorem took_table (hkey : key ∉ s.tableKeys) (h : s.allocateFrame = some (frame,t)) :
    Took s { t with tables := (key,frame) :: t.tables } [(key,frame)] 0 := by
  obtain ⟨ha,ht,hl,hb⟩ := available_of_allocateFrame h
  refine ⟨by rw [← ht]; rfl,?_,List.nodup_singleton _,by simpa using hkey,fun f _ => congrFun hb f⟩
  rw [ha,add_zero]
  rfl

/-- Either all the tables are there now, or the frames have run out before the last one. -/
theorem createTables_cases (keys : List TableKey) (s : UserMemory F) :
    ∃ new, Took s (createTables keys s).2 new 0 ∧ (createTables keys s).2.leaves = s.leaves ∧
      (createTables keys s).2.bytes = s.bytes ∧ new.map Prod.fst ⊆ keys ∧
      ((createTables keys s).1 = true ∧ (∀ key ∈ keys, key ∈ (createTables keys s).2.tableKeys) ∨
        (createTables keys s).1 = false ∧ (createTables keys s).2.available = 0 ∧
          ∃ key ∈ keys, key ∉ (createTables keys s).2.tableKeys) := by
  induction keys generalizing s with
  | nil => exact ⟨[],.refl s,rfl,rfl,List.nil_subset _,.inl ⟨rfl,by simp⟩⟩
  | cons key keys ih =>
    rw [createTables]
    split_ifs with hkey
    · obtain ⟨new,htook,hleaves,hbytes,hsub,hcase⟩ := ih s
      refine ⟨new,htook,hleaves,hbytes,List.subset_cons_of_subset _ hsub,hcase.imp ?_ ?_⟩
      · rintro ⟨hok,hall⟩
        exact ⟨hok,List.forall_mem_cons.mpr ⟨htook.subset_tableKeys hkey,hall⟩⟩
      · rintro ⟨hok,hnone,k,hk,hmiss⟩
        exact ⟨hok,hnone,k,List.mem_cons_of_mem _ hk,hmiss⟩
    · cases ha : s.allocateFrame with
      | none => exact ⟨[],.refl s,rfl,rfl,List.nil_subset _,.inr ⟨rfl,allocateFrame_eq_none.mp ha,key,List.mem_cons_self,hkey⟩⟩
      | some x =>
        obtain ⟨frame,t⟩ := x
        have hone := took_table hkey ha
        obtain ⟨-,-,hl,hb⟩ := available_of_allocateFrame ha
        obtain ⟨new,htook,hleaves,hbytes,hsub,hcase⟩ := ih { t with tables := (key,frame) :: t.tables }
        refine ⟨new ++ [(key,frame)],by simpa using hone.trans htook,hleaves.trans hl,hbytes.trans hb,?_,hcase.imp ?_ ?_⟩
        · rw [List.map_append]
          exact List.append_subset.mpr ⟨List.subset_cons_of_subset _ hsub,by simp⟩
        · rintro ⟨hok,hall⟩
          refine ⟨hok,List.forall_mem_cons.mpr ⟨htook.subset_tableKeys ?_,hall⟩⟩
          rw [hone.tableKeys,Finset.mem_union]
          exact .inl (by simp)
        · rintro ⟨hok,hnone,k,hk,hmiss⟩
          exact ⟨hok,hnone,k,List.mem_cons_of_mem _ hk,hmiss⟩

private theorem mapTo_cases (page : Nat) (frame : F) (flags : PageTableFlags) (s : UserMemory F) :
    ∃ new, Took s (s.mapTo page frame flags).2 new 0 ∧ new.map Prod.fst ⊆ tablesAbove page ∧
      ((s.mapTo page frame flags).1 = .error .frameAllocationFailed ∧ (s.mapTo page frame flags).2.leaves = s.leaves ∧
          (s.mapTo page frame flags).2.available = 0 ∧
          (∃ key ∈ tablesAbove page, key ∉ (s.mapTo page frame flags).2.tableKeys) ∨
        (∃ named, s.leaves page ≠ none ∧ (s.mapTo page frame flags).1 = .error (.pageAlreadyMapped named)) ∧
          (s.mapTo page frame flags).2.leaves = s.leaves ∧
          (∀ key ∈ tablesAbove page, key ∈ (s.mapTo page frame flags).2.tableKeys) ∨
        s.leaves page = none ∧ (s.mapTo page frame flags).1 = .ok () ∧
          (s.mapTo page frame flags).2.leaves = Function.update s.leaves page (some ⟨frame,flags⟩) ∧
          ∀ key ∈ tablesAbove page, key ∈ (s.mapTo page frame flags).2.tableKeys) := by
  obtain ⟨new,htook,hleaves,-,hsub,hcase⟩ := createTables_cases (tablesAbove page) s
  refine ⟨new,?_⟩
  unfold mapTo
  obtain ⟨hok,hall⟩ | ⟨hok,hnone,hmiss⟩ := hcase
  · generalize createTables (tablesAbove page) s = r at *
    obtain ⟨ok,t⟩ := r
    dsimp only at *
    subst hok
    dsimp only
    rw [← hleaves]
    cases hpage : t.leaves page with
    | some existing => exact ⟨htook,hsub,.inr (.inl ⟨⟨existing.frame,nofun,rfl⟩,rfl,hall⟩)⟩
    | none =>
      exact ⟨⟨htook.tables,htook.available,htook.nodup,htook.missing,htook.bytes⟩,hsub,.inr (.inr ⟨rfl,rfl,rfl,hall⟩)⟩
  · generalize createTables (tablesAbove page) s = r at *
    obtain ⟨ok,t⟩ := r
    dsimp only at *
    subst hok
    exact ⟨htook,hsub,.inl ⟨rfl,hleaves,hnone,hmiss⟩⟩

/-- Frames that are numbered. -/
instance : Mapper Nat where
  mapTo := mapTo
  updateFlags := updateFlags
  unmap := unmap
  mapTo_cases := mapTo_cases
  updateFlags_eq page flags s entry hpage := by
    rw [updateFlags,hpage]
    rfl
  unmap_eq_none page s habsent := by
    rw [unmap,Option.filter_eq_none_iff.mpr]
    exact fun entry hpage => by rw [habsent entry hpage]; nofun
  unmap_eq_some page s entry hpage hpresent := by
    rw [unmap,hpage,Option.filter_some,if_pos hpresent]

instance : NamesMapped Nat where
  names page frame flags s existing named hpage herror := by
    obtain ⟨-,-,hleaves,-⟩ := createTables_cases (tablesAbove page) s
    change (mapTo page frame flags s).1 = _ at herror
    unfold mapTo at herror
    generalize createTables (tablesAbove page) s = r at *
    obtain ⟨_ | _,t⟩ := r <;> dsimp only at *
    · cases herror
    · rw [hleaves,hpage] at herror
      cases herror
      rfl

end MofuOS.Memory.UserMemory
