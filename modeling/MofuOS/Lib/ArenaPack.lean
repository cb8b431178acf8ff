import MofuOS.Lib.Arena
import Mathlib.Data.List.Sort

/-! Packing an arena: the regions of a list are moved, one after the other, to the
front. Their order decides whether every one of them survives the move. -/
namespace MofuOS.Lib.Arena
variable {K α : Type} {A : Arena K α} {k k' : K} {r r' : Region} {l : List (K × Region)} {w : Nat}

def total (l : List (K × Region)) : Nat := (l.map fun e => e.2.len).sum

@[simp] theorem total_nil : total ([] : List (K × Region)) = 0 := rfl
@[simp] theorem total_cons (e : K × Region) : total (e :: l) = e.2.len + total l := rfl
@[simp] theorem total_append (l' : List (K × Region)) : total (l ++ l') = total l + total l' := by
  simp [total]

/-- Every region moves towards the front. -/
def Fits : List (K × Region) → Nat → Prop
  | [], _ => True
  | (_,r) :: l, w => (r.len = 0 ∨ w ≤ r.off) ∧ Fits l (w + r.len)

theorem fits_concat : Fits (l ++ [(k,r)]) w ↔ Fits l w ∧ (r.len = 0 ∨ w + total l ≤ r.off) := by
  induction l generalizing w with
  | nil => simp [Fits]
  | cons e l ih => simp only [List.cons_append,Fits,ih,total_cons,and_assoc,Nat.add_assoc]

theorem Fits.of_mem (h : Fits l w) (hm : (k,r) ∈ l) : r.len = 0 ∨ w ≤ r.off := by
  induction l generalizing w with
  | nil => cases hm
  | cons e l ih =>
    obtain ⟨h1,h2⟩ := h
    cases hm with
    | head => exact h1
    | tail _ hm =>
      obtain h0 | hle := ih h2 hm
      · exact .inl h0
      · exact .inr (by omega)

/-- Regions in the order of their offsets move towards the front. -/
theorem fits_of_before (hs : l.Pairwise fun e e' => e.2.Before e'.2)
    (hw : ∀ {k r}, (k,r) ∈ l → r.len = 0 ∨ w ≤ r.off) : Fits l w := by
  induction hs generalizing w with
  | nil => trivial
  | @cons e l hb _ ih =>
    refine ⟨hw List.mem_cons_self,ih fun {k' r'} hm => ?_⟩
    obtain h0 | h0 | hle := hb _ hm
    · rw [h0]
      exact hw (List.mem_cons_of_mem _ hm)
    · exact .inl h0
    · obtain h0 | hwe := hw (k := e.1) (r := e.2) List.mem_cons_self
      · rw [h0]
        exact hw (List.mem_cons_of_mem _ hm)
      · simp only [Region.stop] at hle
        exact .inr (by omega)

/-- Regions in the order of their offsets take no more cells than they span. -/
theorem total_le_of_before {b : Nat} (hs : l.Pairwise fun e e' => e.2.Before e'.2) (hwb : w ≤ b)
    (hw : ∀ {k r}, (k,r) ∈ l → r.len = 0 ∨ (w ≤ r.off ∧ r.stop ≤ b)) : w + total l ≤ b := by
  induction hs generalizing w with
  | nil => exact hwb
  | @cons e l hb _ ih =>
    rw [total_cons,← Nat.add_assoc]
    obtain h0 | ⟨hwe,heb⟩ := hw (k := e.1) (r := e.2) List.mem_cons_self
    · rw [h0]
      exact ih hwb fun hm => hw (List.mem_cons_of_mem _ hm)
    · simp only [Region.stop] at heb
      refine ih (by omega) fun {k' r'} hm => ?_
      obtain h0 | h0 | hle := hb _ hm
      · rw [h0]
        exact hw (List.mem_cons_of_mem _ hm)
      · exact .inl h0
      · simp only [Region.stop] at hle
        obtain h0 | ⟨_,hb'⟩ := hw (List.mem_cons_of_mem _ hm)
        · exact .inl h0
        · exact .inr ⟨by omega,hb'⟩

/-- Whatever the order of the regions, they take no more cells than the arena has. -/
theorem total_le_of_apart {b : Nat} (ha : l.Pairwise fun e e' => e.2.Apart e'.2)
    (hstop : ∀ {k r}, (k,r) ∈ l → r.stop ≤ b) : total l ≤ b := by
  have htot : Std.Total fun e e' : K × Region => e.2.off ≤ e'.2.off := ⟨fun _ _ => Nat.le_total ..⟩
  have htrans : IsTrans _ fun e e' : K × Region => e.2.off ≤ e'.2.off := ⟨fun _ _ _ => Nat.le_trans⟩
  have hperm := List.perm_insertionSort (fun e e' : K × Region => e.2.off ≤ e'.2.off) l
  have hsorted := List.pairwise_insertionSort (fun e e' : K × Region => e.2.off ≤ e'.2.off) l
  have happart := (hperm.pairwise_iff fun h => h.symm).mpr ha
  have hle := total_le_of_before (w := 0) (b := b) ((hsorted.and happart).imp fun h => h.2.before h.1) (Nat.zero_le _)
    fun hm => .inr ⟨Nat.zero_le _,hstop (hperm.mem_iff.mp hm)⟩
  have htotal : total (l.insertionSort fun e e' => e.2.off ≤ e'.2.off) = total l := (hperm.map _).sum_eq
  omega

/-- The cells of the regions of a list, one after the other. -/
def gather (cells : List α) (l : List (K × Region)) : List α := l.flatMap fun e => slice cells e.2.off e.2.len

variable [DecidableEq K]

/-- Move the regions of a list, taken before the move, to w and upwards. -/
def pack : List (K × Region) → Nat → Arena K α → Arena K α
  | [], w, A => { A with top := w }
  | (k,r) :: l, w, A => pack l (w + r.len) ((A.store w (slice A.cells r.off r.len)).assign k ⟨w,r.len⟩)

theorem pack_cons : pack ((k,r) :: l) w A =
    pack l (w + r.len) ((A.store w (slice A.cells r.off r.len)).assign k ⟨w,r.len⟩) := rfl

theorem pack_top : (pack l w A).top = w + total l := by
  induction l generalizing w A with
  | nil => rfl
  | cons e l ih => rw [pack_cons,ih,total_cons,Nat.add_assoc]

theorem pack_region_of_notMem (h : k ∉ l.map Prod.fst) : (pack l w A).region k = A.region k := by
  induction l generalizing w A with
  | nil => rfl
  | cons e l ih =>
    rw [List.map_cons,List.mem_cons,not_or] at h
    rw [pack_cons,ih h.2,assign_region_of_ne h.1,store_region]

/-- A packed region keeps its length and lies between w and the new top. -/
theorem pack_region_of_mem (hn : (l.map Prod.fst).Nodup) (hm : (k,r) ∈ l) :
    ∃ o, (pack l w A).region k = some ⟨o,r.len⟩ ∧ w ≤ o ∧ o + r.len ≤ w + total l := by
  induction l generalizing w A with
  | nil => cases hm
  | cons e l ih =>
    rw [List.map_cons,List.nodup_cons] at hn
    rw [pack_cons]
    cases hm with
    | head =>
      refine ⟨w,?_,Nat.le_refl _,by simp⟩
      rw [pack_region_of_notMem hn.1,assign_region_self]
    | tail _ hm =>
      obtain ⟨o,ho,hle,htop⟩ := ih (w := w + e.2.len) hn.2 hm
      refine ⟨o,ho,by omega,?_⟩
      rw [total_cons]
      omega

theorem pack_region_concat (hn : ((l ++ [(k,r)]).map Prod.fst).Nodup) :
    (pack (l ++ [(k,r)]) w A).region k = some ⟨w + total l,r.len⟩ := by
  induction l generalizing w A with
  | nil => simp [pack]
  | cons e l ih =>
    rw [List.cons_append,List.map_cons,List.nodup_cons] at hn
    rw [List.cons_append,pack,ih hn.2,total_cons,Nat.add_assoc]

theorem pack_apart_of_mem (hn : (l.map Prod.fst).Nodup) (hne : k ≠ k') (hm : (k,r) ∈ l) (hm' : (k',r') ∈ l)
    {q q' : Region} (hq : (pack l w A).region k = some q) (hq' : (pack l w A).region k' = some q') :
    q.Apart q' := by
  induction l generalizing w A with
  | nil => cases hm
  | cons e l ih =>
    rw [List.map_cons,List.nodup_cons] at hn
    rw [pack_cons] at hq hq'
    -- the head stays where it was put, everything after it is placed above
    have above {j : K} {q q' : Region} {rj : Region} (hj : (j,rj) ∈ l)
        (h : (pack l (w + e.2.len) ((A.store w (slice A.cells e.2.off e.2.len)).assign e.1 ⟨w,e.2.len⟩)).region
          e.1 = some q)
        (h' : (pack l (w + e.2.len) ((A.store w (slice A.cells e.2.off e.2.len)).assign e.1 ⟨w,e.2.len⟩)).region
          j = some q') : q.Apart q' := by
      rw [pack_region_of_notMem hn.1,assign_region_self] at h
      obtain ⟨o,ho,hle,_⟩ := pack_region_of_mem (w := w + e.2.len)
        (A := (A.store w (slice A.cells e.2.off e.2.len)).assign e.1 ⟨w,e.2.len⟩) hn.2 hj
      cases h
      rw [ho] at h'
      cases h'
      exact .inr (.inr (.inl hle))
    cases hm with
    | head =>
      cases hm' with
      | head => exact absurd rfl hne
      | tail _ hm' => exact above hm' hq hq'
    | tail _ hm =>
      cases hm' with
      | head => exact (above hm hq' hq).symm
      | tail _ hm' => exact ih hn.2 hm hm' hq hq'

/-- Every cell that was packed to belongs to one of the regions. -/
theorem pack_covers (hn : (l.map Prod.fst).Nodup) {i : Nat} (hw : w ≤ i) (hi : i < w + total l) :
    ∃ k r, (pack l w A).region k = some r ∧ r.off ≤ i ∧ i < r.stop := by
  induction l generalizing w A with
  | nil => exact absurd hi (Nat.not_lt.mpr hw)
  | cons e l ih =>
    rw [List.map_cons,List.nodup_cons] at hn
    rw [pack_cons]
    by_cases hlt : i < w + e.2.len
    · refine ⟨e.1,⟨w,e.2.len⟩,?_,hw,hlt⟩
      rw [pack_region_of_notMem hn.1,assign_region_self]
    · refine ih hn.2 (Nat.not_lt.mp hlt) ?_
      rw [total_cons] at hi
      omega

/-- The last region is moved once everything before it has been. -/
theorem pack_concat : pack (l ++ [(k,r)]) w A =
    { ((pack l w A).store (w + total l) (slice (pack l w A).cells r.off r.len)).assign k ⟨w + total l,r.len⟩ with
      top := w + total l + r.len } := by
  induction l generalizing w A with
  | nil => rfl
  | cons e l ih =>
    rw [List.cons_append,pack,ih,pack,total_cons,← Nat.add_assoc]

/-- The regions before the last one end at or below where it starts. -/
theorem pack_concat_region_of_mem (hn : ((l ++ [(k,r)]).map Prod.fst).Nodup) (hm : (k',r') ∈ l) :
    ∃ q, (pack (l ++ [(k,r)]) w A).region k' = some q ∧ q.stop ≤ w + total l := by
  rw [List.map_append,List.nodup_append] at hn
  have hne : k' ≠ k := hn.2.2 _ (List.mem_map_of_mem hm) _ List.mem_cons_self
  obtain ⟨o,ho,_,hle⟩ := pack_region_of_mem (w := w) (A := A) hn.1 hm
  refine ⟨⟨o,r'.len⟩,?_,hle⟩
  rw [pack_concat,← ho]
  exact assign_region_of_ne hne

section Cells
variable (hr : ∀ {k r}, (k,r) ∈ l → r.stop ≤ A.cells.length) (hw : w + total l ≤ A.cells.length)

private theorem length_moved {cells : List α} (hs : r.stop ≤ cells.length) (hw : w + r.len ≤ cells.length) :
    (overwrite cells w (slice cells r.off r.len)).length = cells.length := by
  apply length_overwrite
  rwa [length_slice hs]

include hr hw

theorem length_pack_cells : (pack l w A).cells.length = A.cells.length := by
  induction l generalizing w A with
  | nil => rfl
  | cons e l ih =>
    rw [total_cons] at hw
    have hlen := length_moved (w := w) (hr (k := e.1) (r := e.2) List.mem_cons_self) (by omega)
    rw [pack_cons,ih]
    · exact hlen
    · intro k' r' hm
      simp only [assign_cells,store_cells,hlen]
      exact hr (List.mem_cons_of_mem _ hm)
    · simp only [assign_cells,store_cells,hlen]
      omega

/-- Packing towards the front writes the regions' cells one after the other. -/
theorem pack_cells (hf : Fits l w) : (pack l w A).cells = overwrite A.cells w (gather A.cells l) := by
  induction l generalizing w A with
  | nil => exact (overwrite_nil ..).symm
  | cons e l ih =>
    rw [total_cons] at hw
    have hs := hr (k := e.1) (r := e.2) List.mem_cons_self
    have hlen := length_moved (w := w) hs (by omega)
    rw [pack_cons,ih (by
      intro k' r' hm
      simp only [assign_cells,store_cells,hlen]
      exact hr (List.mem_cons_of_mem _ hm)) (by simp only [assign_cells,store_cells,hlen]; omega) hf.2]
    have hrest : gather (overwrite A.cells w (slice A.cells e.2.off e.2.len)) l = gather A.cells l := by
      apply List.flatMap_congr
      intro e' hm
      obtain h0 | hle := hf.2.of_mem (k := e'.1) (r := e'.2) hm
      · simp [h0,slice]
      · exact slice_overwrite_of_disjoint (by omega) (.inr (by rw [length_slice hs]; exact hle))
    have hd : w + (slice A.cells e.2.off e.2.len).length ≤ A.cells.length := by
      rw [length_slice hs]
      omega
    have hcons : gather A.cells (e :: l) = slice A.cells e.2.off e.2.len ++ gather A.cells l := List.flatMap_cons
    rw [assign_cells,store_cells,hrest,hcons,← overwrite_overwrite hd,length_slice hs]

/-- Cells below the first target are not touched. -/
theorem slice_pack_of_le {a n : Nat} (h : a + n ≤ w) : slice (pack l w A).cells a n = slice A.cells a n := by
  induction l generalizing w A with
  | nil => rfl
  | cons e l ih =>
    rw [total_cons] at hw
    have hs := hr (k := e.1) (r := e.2) List.mem_cons_self
    have hlen := length_moved (w := w) hs (by omega)
    rw [pack_cons,ih]
    · simp only [assign_cells,store_cells]
      exact slice_overwrite_of_disjoint (by omega) (.inl h)
    · intro k' r' hm
      simp only [assign_cells,store_cells,hlen]
      exact hr (List.mem_cons_of_mem _ hm)
    · simp only [assign_cells,store_cells,hlen]
      omega
    · omega

/-- Packing towards the front keeps every content. -/
theorem pack_content (hf : Fits l w) (hn : (l.map Prod.fst).Nodup) (hm : (k,r) ∈ l) :
    (pack l w A).content k = some (slice A.cells r.off r.len) := by
  induction l generalizing w A with
  | nil => cases hm
  | cons e l ih =>
    rw [total_cons] at hw
    rw [List.map_cons,List.nodup_cons] at hn
    have hs := hr (k := e.1) (r := e.2) List.mem_cons_self
    have hlen := length_moved (w := w) hs (by omega)
    have hr' : ∀ {k r}, (k,r) ∈ l →
        r.stop ≤ ((A.store w (slice A.cells e.2.off e.2.len)).assign e.1 ⟨w,e.2.len⟩).cells.length := by
      intro k' r' hm
      simp only [assign_cells,store_cells,hlen]
      exact hr (List.mem_cons_of_mem _ hm)
    have hw' : w + e.2.len + total l ≤
        ((A.store w (slice A.cells e.2.off e.2.len)).assign e.1 ⟨w,e.2.len⟩).cells.length := by
      simp only [assign_cells,store_cells,hlen]
      omega
    rw [pack_cons]
    cases hm with
    | head =>
      rw [content_eq (r := ⟨w,r.len⟩) (by rw [pack_region_of_notMem hn.1,assign_region_self]),
        slice_pack_of_le hr' hw' (Nat.le_refl _)]
      simp only [assign_cells,store_cells]
      have hself := slice_overwrite_self (l := A.cells) (d := slice A.cells r.off r.len) (o := w) (by omega)
      rw [length_slice hs] at hself
      exact congrArg some hself
    | tail _ hm =>
      rw [ih hr' hw' hf.2 hn.2 hm]
      simp only [assign_cells,store_cells]
      obtain h0 | hle := hf.2.of_mem hm
      · simp [h0,slice]
      · rw [slice_overwrite_of_disjoint (by omega) (.inr (by rw [length_slice hs]; exact hle))]

end Cells

section Last
variable (hr : ∀ {j q}, (j,q) ∈ l ++ [(k,r)] → q.stop ≤ A.cells.length)
  (hw : w + total (l ++ [(k,r)]) ≤ A.cells.length) (hn : ((l ++ [(k,r)]).map Prod.fst).Nodup)
include hr hw

/-- A region that is moved last gets what the others left where it was. -/
theorem pack_concat_content_self (hf : Fits l w) :
    (pack (l ++ [(k,r)]) w A).content k = some (slice (overwrite A.cells w (gather A.cells l)) r.off r.len) := by
  rw [total_append,total_cons,total_nil] at hw
  have hr' : ∀ {k r}, (k,r) ∈ l → r.stop ≤ A.cells.length := fun hm => hr (List.mem_append_left _ hm)
  have hs : r.stop ≤ A.cells.length := hr (List.mem_append_right _ List.mem_cons_self)
  have hlen := length_pack_cells hr' (show w + total l ≤ A.cells.length by omega)
  have hcells := pack_cells hr' (show w + total l ≤ A.cells.length by omega) hf
  have hself := slice_overwrite_self (l := (pack l w A).cells) (d := slice (pack l w A).cells r.off r.len)
    (o := w + total l) (by omega)
  rw [length_slice (by rwa [hlen])] at hself
  rw [pack_concat,content_eq (r := ⟨w + total l,r.len⟩) (by simp)]
  refine congrArg some (hself.trans ?_)
  rw [hcells]

include hn

/-- The regions before it keep their cells, wherever it comes from. -/
theorem pack_concat_content_of_mem (hf : Fits l w) (hm : (k',r') ∈ l) :
    (pack (l ++ [(k,r)]) w A).content k' = some (slice A.cells r'.off r'.len) := by
  rw [total_append,total_cons,total_nil] at hw
  have hr' : ∀ {k r}, (k,r) ∈ l → r.stop ≤ A.cells.length := fun hm => hr (List.mem_append_left _ hm)
  have hlen := length_pack_cells hr' (show w + total l ≤ A.cells.length by omega)
  rw [List.map_append,List.nodup_append] at hn
  have hne : k' ≠ k := hn.2.2 _ (List.mem_map_of_mem hm) _ List.mem_cons_self
  have hkeep : ((pack l w A).store (w + total l) (slice (pack l w A).cells r.off r.len)).content k' =
      (pack l w A).content k' := by
    apply content_store_of_disjoint (by omega)
    intro q hq
    obtain ⟨o,ho,_,hle⟩ := pack_region_of_mem (w := w) (A := A) hn.1 hm
    rw [ho] at hq
    cases hq
    exact .inr (.inl hle)
  rw [← pack_content hr' (by omega) hf hn.1 hm,← hkeep,pack_concat]
  exact content_assign_of_ne hne

end Last
end MofuOS.Lib.Arena
