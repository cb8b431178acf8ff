import MofuOS.Filesystem.Fat32.ReadAfterWrite

/-! The sizes that writes record. The new end is a usize sum, the recorded size keeps 32 bits
of it, and nothing checks that it fits. -/
namespace MofuOS.Filesystem.Fat32
open Lib Io

namespace Fat32Driver
variable {drv : Fat32Driver} {p : Profile} {s t : Disk} {v w : FatView} {T : Tree} {c d k n offset : Nat} {e e₀ : DirectoryEntry}
  {entries : List DirectoryEntry} {data : ByteSlice} {l l' : List Nat}

/-- Slot k of directory d records n bytes. -/
def Records (drv : Fat32Driver) (s : Disk) (d k n : Nat) : Prop :=
  ∃ entries e, Lists drv s d entries ∧ entries[k]? = some e ∧ e.fileSize.toNat = n

/-- A write to the file with entry e in slot k of directory d keeps its size right: a success records the
larger of the old size and the end, and an end of more than 32 bits is refused and changes neither the
size nor the bytes. -/
structure SizesExact (drv : Fat32Driver) (p : Profile) (s : Disk) (d k : Nat) (e : DirectoryEntry) (offset : Nat)
    (data : ByteSlice) : Prop where
  grown : ∀ n t, writeFile drv p (encodeNodeId e d) offset data s = .ok (.ok n,t) →
    Records drv t d k (max e.fileSize.toNat (offset + data.val.length))
  refused : 2^32 ≤ offset + data.val.length → ∃ err t, writeFile drv p (encodeNodeId e d) offset data s = .ok (.error err,t) ∧
    Records drv t d k e.fileSize.toNat ∧
    ∀ l, GoodChain drv s e.getFirstCluster l → ∃ l', GoodChain drv t e.getFirstCluster l' ∧
      ((viewOf drv t).contents l').take e.fileSize.toNat = ((viewOf drv s).contents l).take e.fileSize.toNat

/-- The chain from c and the free clusters have room for n bytes. -/
def HasRoom (drv : Fat32Driver) (s : Disk) (c n : Nat) : Prop :=
  ∃ l, GoodChain drv s c l ∧ n ≤ (l.length + (freeClusters drv (viewOf drv s)).length) * drv.clusterSize

/-- The data starts with the bytes the file has from the offset on. -/
def Repeats (drv : Fat32Driver) (s : Disk) (e : DirectoryEntry) (offset : Nat) (data : List UInt8) : Prop :=
  ∃ l, GoodChain drv s e.getFirstCluster l ∧
    (((viewOf drv s).contents l).take e.fileSize.toNat).drop offset <+: data

/-- The writes that keep the size right. The write takes the old size from the first slot listed with the
cluster of the file, whether or not it is deleted. -/
def KeepsSize (drv : Fat32Driver) (p : Profile) (s : Disk) (entries : List DirectoryEntry) (e : DirectoryEntry) (offset : Nat)
    (data : ByteSlice) : Prop :=
  let first := (entries.find? fun e' => e'.getFirstCluster == e.getFirstCluster).getD e
  let size := e.fileSize.toNat
  let newEnd := offset + data.val.length
  if data.val = [] then offset ≤ size
  else e.getFirstCluster = 0 ∨
    (newEnd < 2^32 ∧ (HasRoom drv s e.getFirstCluster newEnd →
      (if first.fileSize.toNat < newEnd then newEnd else size) = max size newEnd)) ∨
    (2^32 ≤ newEnd ∧ (p.checks = true → newEnd < usizeBound) ∧ ¬ HasRoom drv s e.getFirstCluster newEnd ∧
      Repeats drv s e offset data.val)

theorem Lists.unique {entries' : List DirectoryEntry} (h : Lists drv s d entries) (h' : Lists drv s d entries') :
    entries = entries' := by
  obtain ⟨t,ht⟩ := h
  obtain ⟨t',ht'⟩ := h'
  rw [ht] at ht'
  cases ht'
  rfl

theorem Records.iff (hl : Lists drv s d entries) (hk : entries[k]? = some e) : Records drv s d k n ↔ e.fileSize.toNat = n := by
  constructor
  · rintro ⟨entries',e',hl',hk',hn⟩
    rw [← hl.unique hl',hk] at hk'
    obtain rfl := Option.some.inj hk'
    exact hn
  · exact fun hn => ⟨entries,e,hl,hk,hn⟩

theorem hasRoom_iff (h : Sound drv (viewOf drv s) T) (hc : T.chain c ≠ []) : HasRoom drv s c n ↔
    n ≤ ((T.chain c).length + (freeClusters drv (viewOf drv s)).length) * drv.clusterSize := by
  constructor
  · rintro ⟨l,hl,hn⟩
    rwa [hl.eq_chain h hc] at hn
  · exact fun hn => ⟨_,goodChain_of_object h hc,hn⟩

theorem repeats_iff (h : Sound drv (viewOf drv s) T) (hc : T.chain e.getFirstCluster ≠ []) :
    Repeats drv s e offset data.val ↔ (fileBytes (viewOf drv s) T e).drop offset <+: data.val := by
  constructor
  · rintro ⟨l,hl,hrep⟩
    rwa [hl.eq_chain h hc] at hrep
  · exact fun hrep => ⟨_,goodChain_of_object h hc,hrep⟩

/-- What is put over a file that runs out of space leaves its first n bytes as they are if and only if the data
starts with those of them from the offset on. -/
theorem Put.kept_iff {o : Nat} {bytes : List UInt8} (h : Put drv T c o bytes v (T.chain c) w l') (hs : Stored drv v T)
    (hn : n ≤ (T.chain c).length * drv.clusterSize) (hfull : Full drv (o + bytes.length) w l') :
    (w.contents l').take n = (v.contents (T.chain c)).take n ↔ ((v.contents (T.chain c)).take n).drop o <+: bytes := by
  have hold := length_contents hs.solid (hs.inside c)
  obtain ⟨xs,hl,-⟩ := h.took
  have hlen : l'.length = (T.chain c).length + xs.length := by rw [hl,List.length_append]
  obtain ⟨m,hm⟩ := h.contents
  have hshort := hfull.short
  have hcap : n ≤ l'.length * drv.clusterSize := hn.trans (Nat.mul_le_mul_right _ (by omega))
  have hput : (bytes.take (l'.length * drv.clusterSize - o)).length = min (l'.length * drv.clusterSize - o) bytes.length :=
    List.length_take ..
  have hzeros : (v.contents (T.chain c) ++ List.replicate m 0).take n = (v.contents (T.chain c)).take n :=
    List.take_append_of_le_length (hn.trans hold.ge)
  rw [hm,← hzeros,take_overwrite_eq_iff (by rw [List.length_append,hold]; omega) (by omega),hzeros,List.prefix_take_iff]
  refine and_iff_left ?_
  rw [List.length_drop,List.length_take,hold]
  omega

/-- The first live slot listed with the cluster of a live entry is its own. -/
theorem findIdx?_live (h : Sound drv v T) (hatt : T.Attached d) (hk : (listed (T.slots d))[k]? = some e)
    (hc : e.isChild = true) (h0 : e.getFirstCluster ≠ 0) :
    ((listed (T.slots d)).findIdx? fun e' => !e'.isDeleted && e'.getFirstCluster == e.getFirstCluster) = some k := by
  obtain ⟨hlt,hget⟩ := List.getElem?_eq_some_iff.mp hk
  have hlive : ∀ {e' : DirectoryEntry}, e'.isChild = true → e'.isDeleted = false := by
    intro e' hc'
    cases hdel : e'.isDeleted with
    | false => rfl
    | true =>
      rw [DirectoryEntry.isChild,DirectoryEntry.isValid,hdel,Bool.or_true] at hc'
      cases hc'
  refine List.findIdx?_eq_some_iff_getElem.mpr ⟨hlt,by simp [hget,hlive hc],fun i hi => ?_⟩
  intro hp
  rw [Bool.and_eq_true,Bool.not_eq_true',beq_iff_eq] at hp
  obtain ⟨hslot,hne⟩ := listed_getElem? (List.getElem?_eq_getElem (Nat.lt_trans hi hlt))
  have hv : (listed (T.slots d))[i].isValid = true := by
    rw [DirectoryEntry.isValid,hne,hp.1]
    rfl
  have := h.ok.alone hatt (listed_getElem? hk).1 hslot hc hv hp.2 h0
  omega

/-- A sum that panics is reached before anything is written. -/
theorem writeFile_overflow (G : Geometry drv) (hs : Holds drv s) (h : Sound drv (viewOf drv s) T) (hd : T.Dir d)
    (hfind : ((listed (T.slots d)).find? fun e' => e'.getFirstCluster == c) = some e₀) (h0 : c ≠ 0) {id : FileNodeHandle}
    {a : UInt8} (hid : decodeNodeId id = (c,d,a)) (ha : isDirectory a = false) (hne : data.val ≠ []) {f : Fault}
    (hn : usizeAdd p offset data.val.length = .error f) : writeFile drv p id offset data s = .error f := by
  have hempty : data.val.isEmpty = false := by simpa using hne
  have hentry : (onDisk drv).Runs (findEntryByCluster drv d c) (viewOf drv s) (.ok e₀) (viewOf drv s) := by
    refine (h.readDirectoryEntries_runs G hd).bind ?_
    simp only [hfind]
    exact .pure e₀ _
  obtain ⟨t,ht,-⟩ := hentry s hs rfl
  simp only [writeFile,hempty,hid,ha,Bool.false_eq_true,if_false,if_neg h0]
  rw [Prog.run_bind_ok ht,hn]
  exact Prog.run_bind_fault rfl

section Outcome
variable (G : Geometry drv) (hs : Holds drv s) (h : Sound drv (viewOf drv s) T) (hatt : T.Attached d)
  (hk : (listed (T.slots d))[k]? = some e) (hc : e.isChild = true) (hf : e.isDirectory = false)
  (h0 : e.getFirstCluster ≠ 0)
include G hs h hatt hk hc hf h0

/-- The write returns Ok when the volume has room for its end, and NoSpace when it has not. -/
private theorem write_ended (hfind : ((listed (T.slots d)).find? fun e' => e'.getFirstCluster == e.getFirstCluster) = some e₀)
    (hne : data.val ≠ []) (hn : usizeAdd p offset data.val.length = .ok n) :
    ∃ r t, writeFile drv p (encodeNodeId e d) offset data s = .ok (r,t) ∧
      ((r = .ok data.val.length ∧ HasRoom drv s e.getFirstCluster (offset + data.val.length) ∧
          Lists drv t d ((listed (T.slots d)).set k
            (if e₀.fileSize.toNat < n then { e₀ with fileSize := UInt32.ofNat n } else e))) ∨
        (r = .error .noSpace ∧ ¬ HasRoom drv s e.getFirstCluster (offset + data.val.length) ∧
          Lists drv t d (listed (T.slots d)) ∧
          ∃ l', GoodChain drv t e.getFirstCluster l' ∧
            (((viewOf drv t).contents l').take e.fileSize.toNat = fileBytes (viewOf drv s) T e ↔
              Repeats drv s e offset data.val))) := by
  have hd := hatt.dir h.ok
  have hslot := (listed_getElem? hk).1
  have hok := h.ok.slot hd (List.mem_of_getElem? hslot)
  have hch := hok.child hc h0
  have hfile : T.isDir e.getFirstCluster = false := hch.kind ▸ hf
  have hid := decode_of_le hok.number (G.inVolume_le (h.stored.start_inVolume hd.1))
  have ha : isDirectory (e.attributes &&& 0x7F) = false := by rw [isDirectory_attributes,hf]
  have hsize := hch.fileSize hf
  obtain ⟨r,w,l',hrun,⟨xs,hl,hfree,-⟩,hres⟩ := writeFile_outcome G h hd hfind (findIdx?_live h hatt hk hc h0) hslot hch.object
    hfile h0 hid ha offset hne hn
  have hlen : l'.length = (T.chain e.getFirstCluster).length + xs.length := by rw [hl,List.length_append]
  obtain ⟨t,ht,hgood,hview⟩ := hrun s hs rfl
  have hview : viewOf drv t = w := hview
  refine ⟨r,t,ht,?_⟩
  rcases hres with ⟨rfl,u,hw,hst,-⟩ | ⟨rfl,hput,hfull⟩
  · refine .inl ⟨rfl,(hasRoom_iff h hch.object).mpr (hw.room.trans (Nat.mul_le_mul_right _ ?_)),?_⟩
    · rw [hfree,List.length_append]
      omega
    · have hd' : ((T.withChain e.getFirstCluster l').setSlot d k
          (if e₀.fileSize.toNat < n then { e₀ with fileSize := UInt32.ofNat n } else e)).Dir d :=
        (Tree.dir_withChain hfile).mpr hd
      have hread := readDirectoryEntries_runs G hst.solid (hst.chained hd'.1) fun e' he' => ?_
      · rw [hst.slots hd',Tree.setSlot_slots,Tree.withChain_slots,Function.update_self,listed_set hslot ?_] at hread
        · obtain ⟨t',ht',-⟩ := hread t hgood hview
          exact ⟨t',ht'⟩
        · obtain ⟨i,hi⟩ := List.getElem?_of_mem (List.mem_of_find?_eq_some hfind)
          have hempty : e₀.isEmpty = false := (listed_getElem? hi).2
          rw [(listed_getElem? hk).2]
          split_ifs
          · exact hempty
          · exact (listed_getElem? hk).2
      · rw [hst.slots hd',Tree.setSlot_slots,Tree.withChain_slots,Function.update_self] at he'
        rcases List.mem_or_eq_of_mem_set he' with hmem | rfl
        · exact (h.ok.slot hd hmem).number
        · have hcluster : e₀.getFirstCluster = e.getFirstCluster := by simpa using List.find?_some hfind
          split_ifs
          · change e₀.getFirstCluster ≤ maxClusterNumber
            rw [hcluster]
            exact hok.number
          · exact hok.number
  · have hd' : (T.withChain e.getFirstCluster l').Dir d := (Tree.dir_withChain hfile).mpr hd
    have hsound := hput.sound
    rw [← hview] at hsound
    have hlists := lists_listed G hgood hsound hd'
    rw [Tree.withChain_slots] at hlists
    refine .inr ⟨rfl,fun hroom => ?_,hlists,l',?_,?_⟩
    · rw [hasRoom_iff h hch.object,hfree,hfull.none,List.append_nil,← hlen] at hroom
      exact absurd hfull.short (Nat.not_lt.mpr hroom)
    · have hchain : (T.withChain e.getFirstCluster l').chain e.getFirstCluster = l' := Function.update_self ..
      have hgc := goodChain_of_object hsound (c := e.getFirstCluster) (by rw [hchain,hl]; simp [hch.object])
      rwa [hchain] at hgc
    · rw [hview,repeats_iff h hch.object]
      exact hput.kept_iff h.stored hsize hfull

end Outcome

section Sizes
variable (G : Geometry drv) (hs : Holds drv s) (h : Sound drv (viewOf drv s) T)
include G hs h

/-- On a volume in good order a write to a live file keeps its size right if and only if its end fits 32 bits
or is refused for lack of space without an effect; and the size is found in the file's own slot. -/
theorem writeFile_sizes (hd : Reachable drv s d) (hl : Lists drv s d entries) (hk : entries[k]? = some e)
    (hc : e.isChild = true) (hf : e.isDirectory = false) (offset : Nat) (data : ByteSlice) :
    SizesExact drv p s d k e offset data ↔ KeepsSize drv p s entries e offset data := by
  have hatt := hd.attached G hs h
  obtain rfl := hl.eq_listed G hs h (hatt.dir h.ok)
  have hok := h.ok.slot (hatt.dir h.ok) (List.mem_of_getElem? (listed_getElem? hk).1)
  have hid := decode_of_le hok.number (G.inVolume_le (h.stored.start_inVolume (hatt.dir h.ok).1))
  have ha : isDirectory (e.attributes &&& 0x7F) = false := by rw [isDirectory_attributes,hf]
  have hlt := e.fileSize.toNat_lt
  rw [KeepsSize]
  by_cases hne : data.val = []
  · -- an empty write answers at once
    have hrun : writeFile drv p (encodeNodeId e d) offset data s = .ok (.ok 0,s) := by
      rw [writeFile,if_pos (by simpa using hne)]
      rfl
    simp only [if_pos hne]
    constructor
    · intro hx
      have hrec := (Records.iff hl hk).mp (hx.grown 0 s hrun)
      rw [hne,List.length_nil,Nat.add_zero] at hrec
      omega
    · intro hle
      have hend : offset + data.val.length ≤ e.fileSize.toNat := by rwa [hne,List.length_nil,Nat.add_zero]
      refine ⟨fun n t hw => ?_,fun hbig => by omega⟩
      rw [hrun] at hw
      cases hw
      exact (Records.iff hl hk).mpr (by omega)
  simp only [if_neg hne]
  by_cases h0 : e.getFirstCluster = 0
  · -- a file without clusters refuses every write
    have hrun : writeFile drv p (encodeNodeId e d) offset data s = .ok (.error .invalidPath,s) := by
      have hempty : data.val.isEmpty = false := by simpa using hne
      simp only [writeFile,hempty,hid,ha,h0,Bool.false_eq_true,if_false,if_true]
      rfl
    refine iff_of_true ⟨fun n t hw => ?_,fun _ => ⟨_,s,hrun,(Records.iff hl hk).mpr rfl,fun l hgc => ?_⟩⟩ (.inl h0)
    · rw [hrun] at hw
      cases hw
    · exact ⟨l,hgc,rfl⟩
  obtain ⟨e₀,hfind⟩ : ∃ e₀, ((listed (T.slots d)).find? fun e' => e'.getFirstCluster == e.getFirstCluster) = some e₀ := by
    refine Option.isSome_iff_exists.mp (List.find?_isSome.mpr ⟨e,List.mem_of_getElem? hk,?_⟩)
    exact beq_self_eq_true _
  rw [hfind,Option.getD_some]
  cases hn : usizeAdd p offset data.val.length with
  | error f =>
    -- the sum panics, so the write does not return
    obtain ⟨hover,hchecks⟩ := usizeAdd_error hn
    have hfault := writeFile_overflow G hs h (hatt.dir h.ok) hfind h0 hid ha hne hn
    have hbig : 2^32 ≤ usizeBound := by decide
    refine iff_of_false (fun hx => ?_) ?_
    · obtain ⟨err,t,ht,-⟩ := hx.refused (by omega)
      rw [hfault] at ht
      cases ht
    · rintro (hz | ⟨hsmall,-⟩ | ⟨-,hfits,-⟩)
      · exact h0 hz
      · omega
      · have := hfits hchecks
        omega
  | ok n =>
    have hsum : offset + data.val.length < usizeBound → n = offset + data.val.length := fun hfits => by
      rw [usizeAdd_of_lt p hfits] at hn
      exact (Except.ok.inj hn).symm
    have hbound : p.checks = true → offset + data.val.length < usizeBound := usizeAdd_checked hn
    obtain ⟨r,t,ht,⟨rfl,hroom,hlist⟩ | ⟨rfl,hroom,hlist,l',hgc,hkept⟩⟩ := write_ended G hs h hatt hk hc hf h0 hfind hne hn
    · have hset := List.getElem?_set_self (a := if e₀.fileSize.toNat < n then { e₀ with fileSize := UInt32.ofNat n } else e)
        (List.getElem?_eq_some_iff.mp hk).1
      by_cases hsmall : offset + data.val.length < 2^32
      · obtain rfl := hsum (Nat.lt_trans hsmall (by decide))
        have hsize : (if e₀.fileSize.toNat < offset + data.val.length then
            { e₀ with fileSize := UInt32.ofNat (offset + data.val.length) } else e).fileSize.toNat =
            if e₀.fileSize.toNat < offset + data.val.length then offset + data.val.length else e.fileSize.toNat := by
          split_ifs
          · exact UInt32.toNat_ofNat_of_lt' hsmall
          · rfl
        constructor
        · intro hx
          have hrec := (Records.iff hlist hset).mp (hx.grown _ t ht)
          rw [hsize] at hrec
          exact .inr (.inl ⟨hsmall,fun _ => hrec⟩)
        · rintro (hz | ⟨-,heq⟩ | ⟨hbig,-⟩)
          · exact absurd hz h0
          · refine ⟨fun m u hu => ?_,fun hbig => by omega⟩
            rw [ht] at hu
            cases hu
            exact (Records.iff hlist hset).mpr (hsize.trans (heq hroom))
          · omega
      · refine iff_of_false (fun hx => ?_) ?_
        · obtain ⟨err,u,hu,-⟩ := hx.refused (by omega)
          rw [ht] at hu
          cases hu
        · rintro (hz | ⟨hfits,-⟩ | ⟨-,-,hno,-⟩)
          · exact h0 hz
          · exact hsmall hfits
          · exact hno hroom
    · by_cases hsmall : offset + data.val.length < 2^32
      · refine iff_of_true ⟨fun m u hu => ?_,fun hbig => by omega⟩ (.inr (.inl ⟨hsmall,fun hr => absurd hr hroom⟩))
        rw [ht] at hu
        cases hu
      · constructor
        · intro hx
          obtain ⟨err,u,hu,-,hbytes⟩ := hx.refused (by omega)
          rw [ht] at hu
          cases hu
          have hobj := (hok.child hc h0).object
          obtain ⟨l₁,hl₁,heq⟩ := hbytes _ (goodChain_of_object h hobj)
          rw [hl₁.linked.unique hgc.linked] at heq
          exact .inr (.inr ⟨by omega,hbound,hroom,hkept.mp heq⟩)
        · rintro (hz | ⟨hfits,-⟩ | ⟨-,-,-,hrep⟩)
          · exact absurd hz h0
          · exact absurd hfits hsmall
          · refine ⟨fun m u hu => ?_,fun _ => ⟨_,t,ht,(Records.iff hlist hk).mpr rfl,fun l hl₁ => ⟨l',hgc,?_⟩⟩⟩
            · rw [ht] at hu
              cases hu
            · rw [hl₁.eq_chain h (hok.child hc h0).object]
              exact hkept.mpr hrep

end Sizes

/-- The volume with the file F, and the entry of F. -/
private theorem file_created (p : Profile) : ∃ rs t e entries, runAll (exec smallDriver p) [.createFile ['/'] ['F']] smallVolume = .ok (rs,t) ∧
    Lists smallDriver t 2 entries ∧ entries[0]? = some e ∧ e.isChild = true ∧ e.isDirectory = false ∧
    ∀ f, writeFile smallDriver .dev (encodeNodeId e 2) (2^64 - 1) ⟨[1,2],by decide⟩ t ≠ .ok f := by
  have htrace : ((runAll (exec smallDriver p) [.createFile ['/'] ['F']] smallVolume).toOption.map fun x =>
      listingMeets smallDriver 2 (fun entries => entries[0]?.any fun e => e.isChild && !e.isDirectory &&
        (writeFile smallDriver .dev (encodeNodeId e 2) (2^64 - 1) ⟨[1,2],by decide⟩ x.2).toOption.isNone) x.2) = some true := by
    cases p <;> decide +kernel
  obtain ⟨rs,t,hrun,ht⟩ := runAll_of_view htrace
  obtain ⟨entries,hlist,ht⟩ := lists_of_meets ht
  obtain ⟨e,he,ht⟩ := (Option.any_eq_true ..).mp ht
  rw [Bool.and_eq_true,Bool.and_eq_true,Bool.not_eq_true'] at ht
  obtain ⟨⟨hc,hf⟩,hnone⟩ := ht
  refine ⟨rs,t,e,entries,hrun,hlist,he,hc,hf,fun f hw => ?_⟩
  rw [hw] at hnone
  cases hnone

theorem writeFile_sizes_small : ∃ rs t e entries,
    runAll (exec smallDriver .release) [.createFile ['/'] ['F']] smallVolume = .ok (rs,t) ∧
      (SizesExact smallDriver .release t 2 0 e 0 ⟨[1],by decide⟩ ↔ KeepsSize smallDriver .release t entries e 0 ⟨[1],by decide⟩) := by
  obtain ⟨rs,t,e,entries,hrun,hlist,hk,hc,hf,-⟩ := file_created .release
  have hspares : meets (exec smallDriver .release) (sparesDots smallDriver) [.createFile ['/'] ['F']] smallVolume = true := by
    refine meets_of_forall fun op hop s => ?_
    rw [List.mem_singleton.mp hop]
    rfl
  obtain ⟨ht,T,ho⟩ := (smallVolume_fresh .release).run_inOrder hspares hrun
  exact ⟨rs,t,e,entries,hrun,writeFile_sizes (smallVolume_fresh .release).geometry ht ho.toSound .root hlist hk hc hf 0 _⟩

/-- A write whose end is 2^64 + 1 is not refused: the sum panics. -/
theorem write_end_panics : Fresh .dev smallDriver smallVolume ∧ ∃ rs t e entries,
    runAll (exec smallDriver .dev) [.createFile ['/'] ['F']] smallVolume = .ok (rs,t) ∧
      Lists smallDriver t 2 entries ∧ entries[0]? = some e ∧ e.isChild = true ∧ e.isDirectory = false ∧
      ¬ SizesExact smallDriver .dev t 2 0 e (2^64 - 1) ⟨[1,2],by decide⟩ := by
  obtain ⟨rs,t,e,entries,hrun,hlist,hk,hc,hf,hpanic⟩ := file_created .dev
  refine ⟨smallVolume_fresh .dev,rs,t,e,entries,hrun,hlist,hk,hc,hf,fun hx => ?_⟩
  obtain ⟨err,u,hu,-⟩ := hx.refused (by decide)
  exact hpanic _ hu

end Fat32Driver
end MofuOS.Filesystem.Fat32
