import MofuOS.Filesystem.Fat32.Contents
import MofuOS.Filesystem.Fat32.Stored

/-! Writing file contents: the chain is walked and extended cluster by cluster, and the bytes
of the whole chain are those of one overwrite. -/
namespace MofuOS.Filesystem.Fat32
open Lib Io
open Prog (liftO)

namespace Fat32Driver
variable {drv : Fat32Driver} {v v' v'' : FatView} {T : Tree} {c f i n off : Nat} {l l' l'' : List Nat} {data : List UInt8}

/-- File f has grown from the clusters l to l'; no cluster outside l' has changed. -/
structure Grew (drv : Fat32Driver) (T : Tree) (f : Nat) (v : FatView) (l : List Nat) (v' : FatView) (l' : List Nat) : Prop where
  sound : Sound drv v' (T.withChain f l')
  longer : ∃ xs, l' = l ++ xs
  frame : ∀ x, x ∉ l' → v'.data x = v.data x

/-- File f has grown by zeroed clusters only. -/
structure Appended (drv : Fat32Driver) (T : Tree) (f : Nat) (v : FatView) (l : List Nat) (v' : FatView) (l' : List Nat) :
    Prop extends Grew drv T f v l v' l' where
  contents : ∃ m, v'.contents l' = v.contents l ++ List.replicate m 0

/-- The data has been put at offset o of file f, which has grown by zeroed clusters where needed. -/
structure Wrote (drv : Fat32Driver) (T : Tree) (f o : Nat) (data : List UInt8) (v : FatView) (l : List Nat) (v' : FatView)
    (l' : List Nat) : Prop extends Grew drv T f v l v' l' where
  contents : ∃ m, v'.contents l' = overwrite (v.contents l ++ List.replicate m 0) o data
  room : o + data.length ≤ l'.length * drv.clusterSize

/-- The clusters that l' has in addition were the first free ones; without any the FAT is as it was. -/
def Took (drv : Fat32Driver) (v : FatView) (l : List Nat) (v' : FatView) (l' : List Nat) : Prop :=
  ∃ taken, l' = l ++ taken ∧ freeClusters drv v = taken ++ freeClusters drv v' ∧ (taken = [] → v'.fat = v.fat)

/-- As much of the data as the chain now holds has been put at offset o of file f. -/
structure Put (drv : Fat32Driver) (T : Tree) (f o : Nat) (data : List UInt8) (v : FatView) (l : List Nat) (v' : FatView)
    (l' : List Nat) : Prop extends Grew drv T f v l v' l' where
  contents : ∃ m, v'.contents l' =
    overwrite (v.contents l ++ List.replicate m 0) o (data.take (l'.length * drv.clusterSize - o))
  took : Took drv v l v' l'

/-- The volume is full, and the chain ends in front of the end n. -/
structure Full (drv : Fat32Driver) (n : Nat) (v : FatView) (l : List Nat) : Prop where
  none : freeClusters drv v = []
  short : l.length * drv.clusterSize < n

theorem Put.wrote {o : Nat} (h : Put drv T f o data v l v' l') (hroom : o + data.length ≤ l'.length * drv.clusterSize) :
    Wrote drv T f o data v l v' l' := by
  obtain ⟨m,hm⟩ := h.contents
  rw [List.take_of_length_le (by omega)] at hm
  exact ⟨h.toGrew,⟨m,hm⟩,hroom⟩

theorem Took.of_fat (hfat : v'.fat = v.fat) : Took drv v l v' l :=
  ⟨[],(List.append_nil l).symm,(freeClusters_congr fun y _ => by rw [hfat]).symm,fun _ => hfat⟩

theorem Took.trans (h : Took drv v l v' l') (h' : Took drv v' l' v'' l'') : Took drv v l v'' l'' := by
  obtain ⟨xs,rfl,hxs,hfat⟩ := h
  obtain ⟨ys,rfl,hys,hfat'⟩ := h'
  refine ⟨xs ++ ys,List.append_assoc ..,by rw [hxs,hys,List.append_assoc],fun hnil => ?_⟩
  obtain ⟨hx,hy⟩ := List.append_eq_nil_iff.mp hnil
  rw [hfat' hy,hfat hx]

theorem Grew.refl (h : Sound drv v (T.withChain f l)) : Grew drv T f v l v l :=
  ⟨h,⟨[],(List.append_nil l).symm⟩,fun _ _ => rfl⟩

theorem Grew.trans (h : Grew drv T f v l v' l') (h' : Grew drv T f v' l' v'' l'') : Grew drv T f v l v'' l'' := by
  obtain ⟨xs,rfl⟩ := h.longer
  obtain ⟨ys,rfl⟩ := h'.longer
  refine ⟨h'.sound,⟨xs ++ ys,List.append_assoc ..⟩,fun x hx => ?_⟩
  rw [h'.frame x hx,h.frame x fun hm => hx (List.mem_append_left _ hm)]

theorem Appended.refl (h : Sound drv v (T.withChain f l)) : Appended drv T f v l v l :=
  ⟨.refl h,0,(List.append_nil _).symm⟩

theorem Appended.trans (h : Appended drv T f v l v' l') (h' : Appended drv T f v' l' v'' l'') :
    Appended drv T f v l v'' l'' := by
  obtain ⟨m,hm⟩ := h.contents
  obtain ⟨k,hk⟩ := h'.contents
  refine ⟨h.toGrew.trans h'.toGrew,m + k,?_⟩
  rw [hk,hm,List.append_assoc,List.replicate_append_replicate]

theorem file_chained (h : Sound drv v (T.withChain f l)) (hne : l ≠ []) : Chained drv v f l := by
  have hc : (T.withChain f l).chain f = l := Function.update_self ..
  have := h.stored.chained (o := f) (by rwa [hc])
  rwa [hc] at this

section Write
variable (G : Geometry drv) (hf : T.isDir f = false)
include G hf

/-- The cursor moves on by one cluster, which is appended where the chain ends. -/
theorem nextOrAppended_runs (h : Sound drv v (T.withChain f l)) {r : List Nat} (hi : l.drop i = c :: r) :
    (∃ y v' l' r', (onDisk drv).Runs (nextOrAppended drv c) v (.ok y) v' ∧ Appended drv T f v l v' l' ∧
      Took drv v l v' l' ∧ l'.drop (i + 1) = y :: r') ∨
      (onDisk drv).Runs (nextOrAppended drv c) v (.error .noSpace) v ∧ freeClusters drv v = [] ∧ l.length = i + 1 := by
  have hne : l ≠ [] := List.ne_nil_of_mem (cursor_mem hi)
  have hchain := file_chained h hne
  have hs := h.stored.solid
  have hdrop := cursor_succ hi
  rw [nextOrAppended]
  obtain ⟨-,hc,⟨rfl,hnone⟩ | ⟨b,hb,hsome,hb',-⟩⟩ := (cursor_chained hi hchain).inv
  · have hlast : l.getLast? = some c := by
      rw [← List.take_append_drop i l,hi]
      simp
    have hlast' : ((T.withChain f l).chain f).getLast? = some c := by
      rwa [Tree.withChain_chain,Function.update_self]
    have hlen : l.length = i + 1 := by
      have := congrArg List.length hi
      rw [List.length_drop,List.length_singleton] at this
      omega
    rcases appendCluster_runs G hs hc with ⟨x,rest,hfree,hrun⟩ | ⟨hnil,hrun⟩
    · obtain ⟨hx,h0⟩ := mem_freeClusters.mp (hfree ▸ List.mem_cons_self)
      have hst := h.stored.appendFile G hx h0 hf hlast'
      have htree : (T.withChain f l).withChain f ((T.withChain f l).chain f ++ [x]) = T.withChain f (l ++ [x]) := by
        simp [Tree.withChain]
      rw [htree] at hst
      have hxl : x ∉ l := by
        have := h.stored.free_unowned h0 f
        rwa [Tree.withChain_chain,Function.update_self] at this
      have hdata : ∀ y, y ≠ x → ((fresh drv v x).setFat c x).data y = v.data y := fun y hy => Function.update_of_ne hy ..
      have htook : Took drv v l ((fresh drv v x).setFat c x) (l ++ [x]) :=
        ⟨[x],rfl,by rw [hfree,freeClusters_link hfree (hchain.fat_ne_zero (cursor_mem hi)),List.singleton_append],
          fun hnil => nomatch hnil⟩
      refine .inl ⟨x,_,l ++ [x],[],(getNextCluster_none G hs hc hnone).bind hrun,⟨⟨⟨hst,?_⟩,⟨[x],rfl⟩,fun y hy => ?_⟩,
        drv.clusterSize,?_⟩,htook,?_⟩
      · rw [← htree]
        exact h.ok.withChain hf (by simp) (by simp)
      · exact hdata y fun e => hy (e ▸ List.mem_append_right _ List.mem_cons_self)
      · have hzero : ((fresh drv v x).setFat c x).data x = List.replicate drv.clusterSize 0 := Function.update_self ..
        have hold : ((fresh drv v x).setFat c x).contents l = v.contents l :=
          FatView.contents_congr fun y hy => hdata y fun e => hxl (e ▸ hy)
        rw [FatView.contents] at hold ⊢
        rw [List.flatMap_append,hold,List.flatMap_cons,hzero,List.flatMap_nil,List.append_nil]
      · rw [← hlen,List.drop_left]
    · exact .inr ⟨(getNextCluster_none G hs hc hnone).bind hrun,hnil,hlen⟩
  · obtain ⟨r',rfl⟩ := hb'.linked.eq_cons
    exact .inl ⟨b,v,l,r',(getNextCluster_some G hc hsome hb).bind (.pure b v),.refl h,.of_fat rfl,hdrop⟩

theorem seekCluster_runs (h : Sound drv v (T.withChain f l)) {r : List Nat} (hi : l.drop i = c :: r) :
    ∃ res v' l', (onDisk drv).Runs (seekCluster drv n c) v res v' ∧ Appended drv T f v l v' l' ∧ Took drv v l v' l' ∧
      ((∃ y r', res = .ok y ∧ l'.drop (i + n) = y :: r') ∨
        (res = .error .noSpace ∧ freeClusters drv v' = [] ∧ l'.length ≤ i + n)) := by
  induction n generalizing v l c i r with
  | zero => exact ⟨.ok c,v,l,.pure c v,.refl h,.of_fat rfl,.inl ⟨c,r,rfl,hi⟩⟩
  | succ n ih =>
    rw [seekCluster]
    rcases nextOrAppended_runs G hf h hi with ⟨y,v₁,l₁,r₁,hrun,happ,htook,hy⟩ | ⟨hrun,hnil,hlen⟩
    · obtain ⟨res,v₂,l₂,hrun₂,happ₂,htook₂,hres⟩ := ih happ.sound hy
      refine ⟨res,v₂,l₂,hrun.bind hrun₂,happ.trans happ₂,htook.trans htook₂,?_⟩
      rwa [Nat.add_assoc,Nat.add_comm 1] at hres
    · exact ⟨_,v,l,hrun.bind_error,.refl h,.of_fat rfl,.inr ⟨rfl,hnil,by omega⟩⟩

omit hf in
/-- One round of the write loop: the front of the data goes into the cluster at the cursor. -/
theorem writeRound_runs (hs : Solid drv v) (hc : inVolume drv c = true) (hroom : off + data.length ≤ drv.clusterSize) :
    (onDisk drv).Runs (writeRound drv c off data) v (.ok ()) (v.setData c (overwrite (v.data c) off data)) := by
  have hlen := hs.length_data hc
  have hb : (overwrite (v.data c) off data).length = drv.clusterSize := by
    rw [length_overwrite (by rw [hlen]; exact hroom),hlen]
  rw [writeRound]
  split_ifs with hpart
  · exact (readCluster_runs G hc).bind (writeCluster_runs G hc hb)
  · have hfull : overwrite (v.data c) off data = data := by
      rw [show off = 0 by omega,overwrite_zero,List.drop_eq_nil_of_le (by omega),List.append_nil]
    rw [hfull] at hb ⊢
    exact writeCluster_runs G hc hb

theorem writeFrom_runs (h : Sound drv v (T.withChain f l)) {r : List Nat} (hi : l.drop i = c :: r)
    (hoff : off < drv.clusterSize) {fuel : Nat} (hfuel : data.length < fuel) :
    ∃ res v' l', (onDisk drv).Runs (writeFrom drv fuel c off data) v res v' ∧
      Put drv T f (i * drv.clusterSize + off) data v l v' l' ∧
      ((res = .ok () ∧ i * drv.clusterSize + off + data.length ≤ l'.length * drv.clusterSize) ∨
        (res = .error .noSpace ∧ Full drv (i * drv.clusterSize + off + data.length) v' l')) := by
  induction fuel generalizing v l c i off data r with
  | zero => exact absurd hfuel (Nat.not_lt_zero _)
  | succ fuel ih =>
    have hne : l ≠ [] := List.ne_nil_of_mem (cursor_mem hi)
    have hchain := file_chained h hne
    have hs := h.stored.solid
    have hroom : (i + 1) * drv.clusterSize ≤ l.length * drv.clusterSize := Nat.mul_le_mul_right _ (cursor_lt hi)
    rw [Nat.succ_mul] at hroom
    rw [writeFrom]
    cases data with
    | nil =>
      refine ⟨.ok (),v,l,.pure () v,⟨.refl h,⟨0,?_⟩,.of_fat rfl⟩,.inl ⟨rfl,?_⟩⟩
      · rw [List.take_nil,overwrite_nil,List.replicate_zero,List.append_nil]
      · rw [List.length_nil]
        omega
    | cons b bs =>
      simp only [List.isEmpty_cons,Bool.false_eq_true,if_false]
      generalize hdata : b :: bs = data at *
      generalize hn : min (drv.clusterSize - off) data.length = n
      have hc := hchain.inside c (cursor_mem hi)
      have htake : (data.take n).length = n := by
        rw [List.length_take]
        omega
      have hlen := hs.length_data hc
      have hb : (overwrite (v.data c) off (data.take n)).length = drv.clusterSize := by
        rw [length_overwrite (by rw [htake,hlen]; omega),hlen]
      -- the cluster at the cursor belongs to the file, so the tree is as before
      have h₁ : Sound drv (v.setData c (overwrite (v.data c) off (data.take n))) (T.withChain f l) := by
        refine ⟨h.stored.rewrite (hs.setData hb) rfl (o := f) (fun x hx => Function.update_of_ne ?_ ..) hf,h.ok⟩
        rintro rfl
        rw [Tree.withChain_chain,Function.update_self] at hx
        exact hx (cursor_mem hi)
      have hcont : (v.setData c (overwrite (v.data c) off (data.take n))).contents l =
          overwrite (v.contents l) (i * drv.clusterSize + off) (data.take n) := by
        rw [contents_setData hs hchain.inside hi hchain.linked.nodup hb,← slice_contents hs hchain.inside hi,
          overwrite_window (by rw [length_contents hs hchain.inside]; exact hroom) (by rw [htake]; omega)]
      have hgrew : Grew drv T f v l (v.setData c (overwrite (v.data c) off (data.take n))) l :=
        ⟨h₁,⟨[],(List.append_nil l).symm⟩,fun x hx => Function.update_of_ne (fun e : x = c => hx (e ▸ cursor_mem hi)) ..⟩
      have htook : Took drv v l (v.setData c (overwrite (v.data c) off (data.take n))) l :=
        .of_fat rfl
      have hround := writeRound_runs G hs hc (show off + (data.take n).length ≤ drv.clusterSize by rw [htake]; omega)
      by_cases hrest : (data.drop n).isEmpty = true
      · have hall : data.length ≤ n := by rwa [List.isEmpty_iff,List.drop_eq_nil_iff] at hrest
        refine ⟨.ok (),_,l,hround.bind ?_,⟨hgrew,⟨0,?_⟩,htook⟩,.inl ⟨rfl,by omega⟩⟩
        · rw [if_pos hrest]
          exact .pure () _
        · rw [hcont,List.take_of_length_le hall,List.take_of_length_le (by omega),List.replicate_zero,List.append_nil]
      · have hmore : n < data.length := by
          rw [List.isEmpty_iff,List.drop_eq_nil_iff] at hrest
          omega
        rcases nextOrAppended_runs G hf h₁ hi with ⟨y,v₂,l₂,r₂,hnext,happ,htook₂,hy⟩ | ⟨hnext,hnil,hlast⟩
        · obtain ⟨res,v₃,l₃,hrun,hput,hres⟩ := ih happ.sound hy G.clusterSize_pos
            (show (data.drop n).length < fuel by rw [List.length_drop]; omega)
          have hstep : (i + 1) * drv.clusterSize + 0 = i * drv.clusterSize + off + (data.take n).length := by
            rw [htake,Nat.succ_mul]
            omega
          have hend : (i + 1) * drv.clusterSize + 0 + (data.drop n).length = i * drv.clusterSize + off + data.length := by
            rw [hstep,htake,List.length_drop]
            omega
          rw [hend] at hres
          refine ⟨res,v₃,l₃,hround.bind ?_,⟨(hgrew.trans happ.toGrew).trans hput.toGrew,?_,(htook.trans htook₂).trans hput.took⟩,hres⟩
          · rw [if_neg hrest]
            exact hnext.bind hrun
          · obtain ⟨m,hm⟩ := happ.contents
            obtain ⟨k,hk⟩ := hput.contents
            obtain ⟨xs,rfl⟩ := hput.longer
            have hreach : (i + 1) * drv.clusterSize ≤ (l₂ ++ xs).length * drv.clusterSize := by
              refine Nat.mul_le_mul_right _ ?_
              have := cursor_lt hy
              rw [List.length_append]
              omega
            have hfit : i * drv.clusterSize + off + (data.take n).length ≤ (v.contents l).length := by
              rw [htake,length_contents hs hchain.inside]
              omega
            refine ⟨m + k,?_⟩
            have hjoin : data.take n ++ (data.drop n).take ((l₂ ++ xs).length * drv.clusterSize - ((i + 1) * drv.clusterSize + 0)) =
                data.take ((l₂ ++ xs).length * drv.clusterSize - (i * drv.clusterSize + off)) := by
              rw [← List.take_add]
              congr 1
              rw [Nat.succ_mul] at hreach ⊢
              omega
            rw [← hjoin,hk,hm,hcont,hstep,List.append_assoc,List.replicate_append_replicate,← overwrite_append _ hfit,
              overwrite_overwrite (by rw [List.length_append]; omega)]
        · refine ⟨_,_,l,hround.bind ?_,⟨hgrew,⟨0,?_⟩,htook⟩,.inr ⟨rfl,hnil,?_⟩⟩
          · rw [if_neg hrest]
            exact hnext.bind_error
          · have hexact : l.length * drv.clusterSize - (i * drv.clusterSize + off) = n := by
              rw [hlast,Nat.succ_mul]
              omega
            rw [hcont,hexact,List.replicate_zero,List.append_nil]
          · rw [hlast,Nat.succ_mul]
            omega

/-- A write puts its data at the offset, over the old bytes and zeros behind them, or fails
for lack of space with the chain extended as far as it went. -/
theorem writeContents_runs (h : Sound drv v T) (ho : T.chain f ≠ []) (offset : Nat) {data : List UInt8} (hne : data ≠ []) :
    ∃ res v' l', (onDisk drv).Runs (writeContents drv f offset data) v res v' ∧
      Put drv T f offset data v (T.chain f) v' l' ∧
      ((res = .ok () ∧ offset + data.length ≤ l'.length * drv.clusterSize) ∨
        (res = .error .noSpace ∧ Full drv (offset + data.length) v' l')) := by
  have hcs := G.clusterSize_pos
  have hself : T.withChain f (T.chain f) = T := by
    rw [Tree.withChain,Function.update_eq_self]
  have h' : Sound drv v (T.withChain f (T.chain f)) := hself.symm ▸ h
  obtain ⟨r,hr⟩ := (h.stored.chained ho).linked.eq_cons
  have hdiv : divisor drv.clusterSize = .ok drv.clusterSize := if_neg (by omega)
  rw [writeContents]
  obtain ⟨res,v₁,l₁,hseek,happ,htook,hres⟩ := seekCluster_runs G hf (n := offset / drv.clusterSize) h'
    (show (T.chain f).drop 0 = f :: r from hr)
  obtain ⟨m,hm⟩ := happ.contents
  rw [Nat.zero_add] at hres
  rcases hres with ⟨y,r₁,rfl,hy⟩ | ⟨rfl,hnil,hlen⟩
  · obtain ⟨res,v₂,l₂,hwrite,hput,hres⟩ := writeFrom_runs G hf happ.sound hy (Nat.mod_lt offset hcs)
      (Nat.lt_succ_self data.length)
    rw [Nat.div_add_mod'] at hres hput
    refine ⟨res,v₂,l₂,(Abstraction.Runs.liftO hdiv v).bind (hseek.bind hwrite),
      ⟨happ.toGrew.trans hput.toGrew,?_,htook.trans hput.took⟩,hres⟩
    obtain ⟨k,hk⟩ := hput.contents
    exact ⟨m + k,by rw [hk,hm,List.append_assoc,List.replicate_append_replicate]⟩
  · -- the chain ended on the way to the offset
    have hshort : l₁.length * drv.clusterSize ≤ offset :=
      (Nat.mul_le_mul_right _ hlen).trans (Nat.div_mul_le_self ..)
    refine ⟨.error .noSpace,v₁,l₁,(Abstraction.Runs.liftO hdiv v).bind hseek.bind_error,⟨happ.toGrew,⟨m,?_⟩,htook⟩,
      .inr ⟨rfl,hnil,?_⟩⟩
    · rw [Nat.sub_eq_zero_of_le hshort,List.take_zero,overwrite_nil,hm]
    · have := List.length_pos_of_ne_nil hne
      omega

end Write
end Fat32Driver
end MofuOS.Filesystem.Fat32
