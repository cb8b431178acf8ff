import MofuOS.Filesystem.FileCacheGrow

/-! The layout of the arena under each transaction of the cache: every one of them keeps
the bounds, and all but the growth in place keep the regions apart. -/
namespace MofuOS.Filesystem.FileCache
open Lib
open FiniteMap (get insert remove iter modify view)
variable {M : Type → Type} [FiniteMap FileNodeHandle M] {D : Type} [CacheFilesystemDriver D]
  {p : Profile} {s t u v : FileCache M D} {id : FileNodeHandle} {f g : CachedFile} {size newLen : Nat}

omit [CacheFilesystemDriver D] in
private theorem Bounds.of_arena (hb : Bounds s) (hmax : t.maxMemory = s.maxMemory)
    (hlen : (arenaOf t).cells.length = (arenaOf s).cells.length) (hbd : (arenaOf t).Bounded) : Bounds t :=
  ⟨hmax ▸ hb.max_lt,by rw [hmax]; exact hlen.trans hb.length,hbd⟩

omit [CacheFilesystemDriver D] in
/-- Filling the room above the push offset and placing a region there. -/
private theorem placed (id : FileNodeHandle) {A : Arena FileNodeHandle UInt8} {data : List UInt8} {n : Nat} (hA : A.Bounded)
    (hfit : A.top + data.length ≤ A.cells.length) (hn : n ≤ data.length) :
    (((A.store A.top data).raise data.length).assign id ⟨A.top,n⟩).Bounded ∧
      (A.Apart → (((A.store A.top data).raise data.length).assign id ⟨A.top,n⟩).Apart) := by
  constructor
  · apply ((hA.store hfit).raise _).assign
    · simp only [Region.stop,Arena.raise_top,Arena.store_top]
      omega
    · rwa [Arena.store_cells,length_overwrite hfit]
  · intro ha
    apply Arena.Apart.assign ha
    intro k' r' _ hr
    exact hA.apart_of_top_le (Nat.le_refl _) hr

theorem Claimed.arena (h : Claimed id size s t) : ∃ data, data.length = size ∧
    arenaOf t = ((arenaOf s).store s.arenaPushOffset data).raise size := by
  obtain ⟨buf,data,e,hbuf,hread,harena,hpush⟩ := h.out
  refine ⟨data,(CacheFilesystemDriver.readFileInto_length hread).trans hbuf,?_⟩
  have hr : view CachedFile.region t.files = view CachedFile.region s.files := view_of_core Prod.fst h.core
  rw [arenaOf,harena,hpush,hr]
  rfl

theorem Claimed.bounds (h : Claimed id size s t) (hb : Bounds s) : Bounds t := by
  obtain ⟨data,rfl,harena⟩ := h.arena
  have hfit : (arenaOf s).top + data.length ≤ (arenaOf s).cells.length := Nat.le_trans h.fits (Nat.le_of_eq hb.length.symm)
  apply hb.of_arena h.max
  · rw [harena]
    exact length_overwrite hfit
  · rw [harena]
    apply (hb.bounded.store hfit).raise
    rwa [Arena.store_cells,length_overwrite hfit]

theorem Claimed.apart (h : Claimed id size s t) (ha : (arenaOf s).Apart) : (arenaOf t).Apart := by
  obtain ⟨data,_,harena⟩ := h.arena
  rw [harena]
  exact ha

theorem Loaded.layout (h : Loaded id size s t) (hb : Bounds s) :
    Bounds t ∧ ((arenaOf s).Apart → (arenaOf t).Apart) := by
  obtain ⟨buf,n,data,d,rfl,hread,_,_,harena⟩ := h.out
  have hfits := h.fits
  have hn := CacheFilesystemDriver.readFileInto_le hread
  rw [← CacheFilesystemDriver.readFileInto_length hread] at harena hn hfits
  have hfit : (arenaOf s).top + data.length ≤ (arenaOf s).cells.length := Nat.le_trans hfits (Nat.le_of_eq hb.length.symm)
  have hplaced := placed id hb.bounded hfit hn
  rw [harena]
  exact ⟨hb.of_arena h.max (by rw [harena]; exact length_overwrite hfit) (harena ▸ hplaced.1),hplaced.2⟩

theorem Created.layout (h : Created id size s t) (hb : Bounds s) :
    Bounds t ∧ ((arenaOf s).Apart → (arenaOf t).Apart) := by
  have hfits := h.fits
  have harena := h.arena
  rw [← List.length_replicate (n := size) (a := (0 : UInt8))] at hfits
  nth_rewrite 2 [← List.length_replicate (n := size) (a := (0 : UInt8))] at harena
  have hfit : (arenaOf s).top + (List.replicate size (0 : UInt8)).length ≤ (arenaOf s).cells.length :=
    Nat.le_trans hfits (Nat.le_of_eq hb.length.symm)
  have hplaced := placed id (n := 0) hb.bounded hfit (Nat.zero_le _)
  rw [harena]
  exact ⟨hb.of_arena h.max (by rw [harena]; exact length_overwrite hfit) (harena ▸ hplaced.1),hplaced.2⟩

omit [CacheFilesystemDriver D] in
theorem Relocated.layout (h : Relocated id f newLen s t) (hb : Bounds s) (hlt : f.len < newLen) :
    Bounds t ∧ ((arenaOf s).Apart → (arenaOf t).Apart) := by
  have hstop := hb.stop_le h.cached
  have hpush := hb.push_le
  have hlen := hb.length
  have hslice : (slice s.arena f.arenaOffset f.len).length = f.len := length_slice (by omega)
  have hfits := h.fits
  have h1 : (arenaOf s).top + (slice s.arena f.arenaOffset f.len).length ≤ (arenaOf s).cells.length := by
    simp only [arenaOf,hslice]
    omega
  have hl1 := length_overwrite h1
  have h2 : s.arenaPushOffset + f.len + (List.replicate (newLen - f.len) (0 : UInt8)).length ≤
      ((arenaOf s).store s.arenaPushOffset (slice s.arena f.arenaOffset f.len)).cells.length := by
    rw [Arena.store_cells]
    rw [List.length_replicate]
    simp only [arenaOf] at hl1 ⊢
    rw [hl1]
    omega
  constructor
  · apply hb.of_arena h.max
    · rw [h.arena]
      exact (length_overwrite h2).trans hl1
    · rw [h.arena]
      apply (((hb.bounded.store h1).store h2).raise _).assign
      · exact Nat.le_refl _
      · exact Nat.le_trans hfits (Nat.le_of_eq (((length_overwrite h2).trans hl1).trans hlen).symm)
  · intro ha
    rw [h.arena]
    apply Arena.Apart.assign ha
    intro k' r' _ hr
    exact hb.bounded.apart_of_top_le (Nat.le_refl _) hr

omit [CacheFilesystemDriver D] in
theorem Extended.bounds (h : Extended id f newLen s t) (hb : Bounds s) (hlt : f.len < newLen) : Bounds t := by
  have hstop := hb.stop_le h.cached
  have hlen := hb.length
  have hfits := h.fits
  have hfit : (arenaOf s).top + (List.replicate (newLen - f.len) (0 : UInt8)).length ≤ (arenaOf s).cells.length := by
    simp only [arenaOf,List.length_replicate]
    omega
  apply hb.of_arena h.max
  · rw [h.arena]
    exact length_overwrite hfit
  · rw [h.arena]
    apply ((hb.bounded.store hfit).raise _).assign
    · simp only [Region.stop,Arena.raise_top,Arena.store_top,arenaOf]
      omega
    · exact Nat.le_trans hfits (Nat.le_of_eq ((length_overwrite hfit).trans hlen).symm)

/-- The bytes that growing in place would take belong to no other file. -/
def RoomBehind (s : FileCache M D) (id : FileNodeHandle) (f : CachedFile) (newLen : Nat) : Prop :=
  ∀ e ∈ iter s.files, e.1 ≠ id → (⟨f.arenaOffset + f.len,newLen - f.len⟩ : Region).Apart e.2.region

omit [CacheFilesystemDriver D] in
/-- Growing in place keeps the regions apart exactly where the room behind the file is free. -/
theorem Extended.apart (h : Extended id f newLen s t) (hlt : f.len < newLen) (ha : (arenaOf s).Apart)
    (hroom : RoomBehind s id f newLen) : (arenaOf t).Apart := by
  rw [h.arena]
  apply Arena.Apart.assign ha
  intro k' r' hne hr
  obtain ⟨g,hg,rfl⟩ := arenaOf_region_eq_some hr
  have hfg := ha hne.symm (arenaOf_region h.cached) hr
  have hext := hroom (k',g) ((FiniteMap.mem_iter ..).mpr hg) hne
  simp only [Region.Apart,Region.stop,CachedFile.region] at *
  omega

omit [CacheFilesystemDriver D] in
theorem roomBehind_of_tail (hb : Bounds s) (htail : f.arenaOffset + f.len = s.arenaPushOffset) :
    RoomBehind s id f newLen := by
  intro e hm _
  have hstop := hb.stop_le ((FiniteMap.mem_iter s.files e.1 e.2).mp hm)
  simp only [Region.Apart,Region.stop,CachedFile.region]
  omega

theorem Patched.bounds {offset : Nat} {data : List UInt8} {r : Except FileSystemError Nat}
    (h : Patched p id f offset data s r t) (hb : Bounds s) :
    Bounds t := by
  obtain ⟨dst,_,hfit,harena⟩ := h.arena
  apply hb.of_arena h.max
  · rw [harena]
    exact length_overwrite hfit
  · rw [harena]
    exact hb.bounded.store hfit

theorem Patched.apart {offset : Nat} {data : List UInt8} {r : Except FileSystemError Nat}
    (h : Patched p id f offset data s r t)
    (ha : (arenaOf s).Apart) : (arenaOf t).Apart := by
  obtain ⟨dst,_,_,harena⟩ := h.arena
  rw [harena]
  exact ha

/-- Growth keeps the bounds in every branch. -/
theorem Grown.bounds {r : Except FileSystemError Unit} (h : Grown p id f newLen s r t) (hb : Bounds s)
    (hlt : f.len < newLen) : Bounds t := by
  cases h with
  | tail _ out => exact out.bounds hb hlt
  | relocated out => exact (out.layout hb hlt).1
  | inPlace _ _ _ out => exact out.bounds hb hlt
  | packed _ _ steps packed len _ out _ => exact out.bounds (packed.bounds (steps.bounds hb)) (by rw [len]; exact hlt)
  | full _ _ steps _ => exact steps.bounds hb

theorem Grown.apart {r : Except FileSystemError Unit} (h : Grown p id f newLen s r t) (hb : Bounds s)
    (hlt : f.len < newLen) (ha : (arenaOf s).Apart)
    (hroom : p.checks = false → f.arenaOffset + f.len ≠ s.arenaPushOffset →
      s.maxMemory < s.arenaPushOffset + newLen → s.arenaPushOffset + (newLen - f.len) ≤ s.maxMemory →
      RoomBehind s id f newLen) : (arenaOf t).Apart := by
  cases h with
  | tail tail out => exact out.apart hlt ha (roomBehind_of_tail hb tail)
  | relocated out => exact (out.layout hb hlt).2 ha
  | inPlace unchecked not_tail no_copy out =>
    exact out.apart hlt ha (hroom unchecked not_tail no_copy out.fits)
  | packed _ _ steps packed len tail out _ =>
    exact out.apart (by rw [len]; exact hlt) packed.apart (roomBehind_of_tail (packed.bounds (steps.bounds hb)) tail)
  | full _ _ steps _ => exact steps.apart ha

end MofuOS.Filesystem.FileCache
