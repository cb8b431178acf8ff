import MofuOS.Filesystem.Fat32.ChainWalk

/-! The bytes of a chain around a cursor, and the loop that reads them. -/
namespace MofuOS.Filesystem.Fat32
open Lib Io
open Prog (liftO)

namespace Fat32Driver
variable {drv : Fat32Driver} {v : FatView} {a c i n off : Nat} {l : List Nat}

section Cursor
variable {r : List Nat} (hs : Solid drv v) (hin : ∀ x ∈ l, inVolume drv x = true) (hi : l.drop i = c :: r)
include hi

theorem cursor_mem : c ∈ l := List.mem_of_mem_drop (hi ▸ List.mem_cons_self)

theorem cursor_lt : i < l.length := by
  by_contra hlt
  rw [List.drop_eq_nil_of_le (by omega)] at hi
  cases hi

theorem cursor_succ : l.drop (i + 1) = r := by
  rw [← List.drop_drop,hi]
  rfl

theorem cursor_chained (h : Chained drv v a l) : Chained drv v c (c :: r) :=
  ⟨h.linked.drop hi,fun x hx => h.inside x (List.mem_of_mem_drop (hi ▸ hx))⟩

include hs hin

/-- The bytes of a chain around the cluster at the cursor. -/
private theorem contents_split : v.contents l = v.contents (l.take i) ++ (v.data c ++ v.contents r) ∧
    (v.contents (l.take i)).length = i * drv.clusterSize := by
  have hl : l = l.take i ++ c :: r := by rw [← hi,List.take_append_drop]
  refine ⟨?_,?_⟩
  · conv_lhs => rw [hl]
    simp only [FatView.contents,List.flatMap_append,List.flatMap_cons]
  · rw [length_contents hs fun x hx => hin x (List.mem_of_mem_take hx),List.length_take,
      Nat.min_eq_left (cursor_lt hi).le]

theorem slice_contents : slice (v.contents l) (i * drv.clusterSize) drv.clusterSize = v.data c := by
  obtain ⟨hsplit,hlen⟩ := contents_split hs hin hi
  rw [slice,hsplit,← hlen,List.drop_left,← hs.length_data (hin c (cursor_mem hi)),List.take_left]

/-- Replacing one cluster of a chain overwrites its part of the bytes. -/
theorem contents_setData (hnd : l.Nodup) {b : List UInt8} (hb : b.length = drv.clusterSize) :
    (v.setData c b).contents l = overwrite (v.contents l) (i * drv.clusterSize) b := by
  obtain ⟨hsplit,hlen⟩ := contents_split hs hin hi
  have hl : l = l.take i ++ c :: r := by rw [← hi,List.take_append_drop]
  have hnd' := hl ▸ hnd
  have hc : c ∉ l.take i ∧ c ∉ r := by
    rw [List.nodup_append] at hnd'
    exact ⟨fun hm => hnd'.2.2 c hm c List.mem_cons_self rfl,(List.nodup_cons.mp hnd'.2.1).1⟩
  have hleft : (v.setData c b).contents (l.take i) = v.contents (l.take i) :=
    FatView.contents_congr fun x hx => Function.update_of_ne (fun e : x = c => hc.1 (e ▸ hx)) ..
  have hright : (v.setData c b).contents r = v.contents r :=
    FatView.contents_congr fun x hx => Function.update_of_ne (fun e : x = c => hc.2 (e ▸ hx)) ..
  have hself : (v.setData c b).data c = b := Function.update_self ..
  have hnew := (contents_split (hs.setData (c := c) hb) hin hi).1
  rw [hleft,hself,hright] at hnew
  rw [hnew,hsplit,overwrite,← hlen,List.take_left,hb,← hs.length_data (hin c (cursor_mem hi)),← List.drop_drop,
    List.drop_left,List.drop_left,List.append_assoc]

end Cursor

section Read
variable (G : Geometry drv)
include G

/-- The read loop copies the bytes from the cursor on, over the cluster boundaries. -/
theorem readFrom_runs (hs : Solid drv v) (h : Chained drv v a l) {r : List Nat} (hi : l.drop i = c :: r)
    (hoff : off < drv.clusterSize) (hn : i * drv.clusterSize + off + n ≤ l.length * drv.clusterSize) {fuel : Nat}
    (hfuel : n < fuel) :
    (onDisk drv).Runs (readFrom drv fuel c off n) v (.ok (slice (v.contents l) (i * drv.clusterSize + off) n)) v := by
  induction fuel generalizing c i off n r with
  | zero => exact absurd hfuel (Nat.not_lt_zero _)
  | succ fuel ih =>
    have hc := h.inside c (cursor_mem hi)
    rw [readFrom]
    by_cases h0 : n = 0
    · subst h0
      rw [if_pos rfl,slice,List.take_zero]
      exact .pure [] v
    · rw [if_neg h0]
      generalize hm : min (drv.clusterSize - off) n = m
      have hchunk : slice (v.data c) off m = slice (v.contents l) (i * drv.clusterSize + off) m := by
        rw [← slice_contents hs h.inside hi,slice_slice (by omega)]
      refine (readCluster_runs G hc).bind ?_
      simp only [hchunk]
      by_cases hmore : m < n
      · -- bytes are left behind this cluster, so the chain goes on
        have hlen : i + 1 < l.length := by
          by_contra hle
          have := Nat.mul_le_mul_right drv.clusterSize (show l.length ≤ i + 1 by omega)
          rw [Nat.succ_mul] at this
          omega
        have hdrop := cursor_succ hi
        rw [if_pos hmore]
        obtain ⟨-,-,⟨rfl,-⟩ | ⟨b,hb,hsome,hb',-⟩⟩ := (cursor_chained hi h).inv
        · rw [List.drop_eq_nil_iff] at hdrop
          omega
        · obtain ⟨r',rfl⟩ := hb'.linked.eq_cons
          have hstep : (i + 1) * drv.clusterSize + 0 = i * drv.clusterSize + off + m := by
            rw [Nat.succ_mul]
            omega
          have hrun := ih hdrop G.clusterSize_pos (n := n - m) (by omega) (by omega)
          rw [hstep] at hrun
          refine (getNextCluster_some G hc hsome hb).bind (hrun.bind ?_)
          rw [slice_append_slice,Nat.add_sub_cancel' hmore.le]
          exact .pure _ v
      · rw [if_neg hmore,show m = n by omega]
        exact .pure _ v

/-- A read returns the bytes of the file from the offset on, as far as its size goes. -/
theorem readContents_runs (hs : Solid drv v) (h : Chained drv v c l) {size : Nat}
    (hsize : size ≤ l.length * drv.clusterSize) (offset outLen : Nat) :
    (onDisk drv).Runs (readContents drv c size offset outLen) v
      (.ok (slice ((v.contents l).take size) offset outLen)) v := by
  have hpos := G.clusterSize_pos
  have htake : slice ((v.contents l).take size) offset outLen = slice (v.contents l) offset (min outLen (size - offset)) := by
    have := slice_slice_min (v.contents l) 0 size offset outLen
    rwa [Nat.zero_add] at this
  rw [readContents,htake]
  by_cases hend : size ≤ offset
  · rw [if_pos hend,Nat.sub_eq_zero_of_le hend,Nat.min_zero,slice,List.take_zero]
    exact .pure [] v
  · have hlt : offset / drv.clusterSize < l.length := (Nat.div_lt_iff_lt_mul hpos).mpr (by omega)
    obtain ⟨x,hskip,hx⟩ := skipClusters_runs G h hlt
    obtain ⟨r,hr⟩ := hx.linked.eq_cons
    have hdm := Nat.div_add_mod' offset drv.clusterSize
    have hread := readFrom_runs G hs h hr (Nat.mod_lt offset hpos) (n := min outLen (size - offset))
      (by omega) (Nat.lt_succ_self _)
    rw [hdm] at hread
    rw [if_neg hend]
    exact (Abstraction.Runs.liftO (if_neg hpos.ne') v).bind (hskip.bind hread)

end Read
end Fat32Driver
end MofuOS.Filesystem.Fat32
