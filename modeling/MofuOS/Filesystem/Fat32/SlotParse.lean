import MofuOS.Filesystem.Fat32.StaleHandle

/-! What the bytes of a directory must be like for the driver to list it. A slot is decoded
as a short entry before its kind is looked at, so the check on its cluster field also falls
on long names, labels and deleted entries, where those bytes mean something else. -/
namespace MofuOS.Filesystem.Fat32.Fat32Driver
open Lib Io
variable {drv : Fat32Driver} {s : Disk} {d : Nat} {l : List Nat}

/-- Over a chain that ends inside the volume, a listing comes down to the parse of its bytes. -/
theorem readDirectoryEntries_eq (G : Geometry drv) (hs : Holds drv s) (h : Chained drv (viewOf drv s) d l) :
    readDirectoryEntries drv d s =
      if ∀ e ∈ examined ((viewOf drv s).slots l), e.getFirstCluster ≤ maxClusterNumber then
        .ok (.ok (listed ((viewOf drv s).slots l)),s)
      else .error .panic := by
  have hsolid := solid_viewOf G hs
  obtain ⟨t,ht,hgood,hview⟩ := getClusterChainLength_runs G hsolid h s hs rfl
  obtain ⟨u,hu,-,-⟩ := readClusterChain_runs G hsolid h t hgood hview
  cases clusterChainLengthFrom_readOnly drv _ d _ _ _ ht
  cases readClusterChainFrom_readOnly drv _ d _ _ _ _ hu
  have hparse : parseEntries (((viewOf drv s).contents l).length / directoryEntrySize) ((viewOf drv s).contents l) = _ :=
    parseEntries_exact (Nat.mul_div_le _ 32)
  rw [readDirectoryEntries,Prog.run_bind_ok ht,Prog.run_bind_ok hu,hparse,FatView.slots]
  split_ifs <;> rfl

/-- A directory is listed, and then exactly by its slots in front of the first unused one,
when every slot up to and including that one has a cluster field of 24 bits. -/
theorem readDirectoryEntries_lists_iff (G : Geometry drv) (hs : Holds drv s) (h : Chained drv (viewOf drv s) d l) :
    readDirectoryEntries drv d s = .ok (.ok (listed ((viewOf drv s).slots l)),s) ↔
      ∀ e ∈ examined ((viewOf drv s).slots l), e.getFirstCluster ≤ maxClusterNumber := by
  rw [readDirectoryEntries_eq G hs h]
  split_ifs with hc
  · exact iff_of_true rfl hc
  · exact iff_of_false nofun hc

/-- The chain of the root directory of a fresh volume of four sectors. -/
private theorem root_chained {s : Disk} (h : fatOf (tinyDriver 4) s.data 2 = endOfChain) :
    Chained (tinyDriver 4) (viewOf (tinyDriver 4) s) 2 [2] := by
  refine ⟨.last ?_,fun x hx => ?_⟩
  · show FatView.next (viewOf (tinyDriver 4) s) 2 = none
    rw [FatView.next,show (viewOf (tinyDriver 4) s).fat 2 = _ from h]
    rfl
  · rw [List.mem_singleton.mp hx]
    rfl

theorem readDirectoryEntries_lists_iff_fresh :
    readDirectoryEntries (tinyDriver 4) 2 (tinyVolume 4) =
        .ok (.ok (listed ((viewOf (tinyDriver 4) (tinyVolume 4)).slots [2])),tinyVolume 4) ↔
      ∀ e ∈ examined ((viewOf (tinyDriver 4) (tinyVolume 4)).slots [2]), e.getFirstCluster ≤ maxClusterNumber :=
  readDirectoryEntries_lists_iff (tinyVolume_fresh .dev (.inl rfl)).geometry (tinyVolume_fresh .dev (.inl rfl)).holds
    (root_chained (by decide +kernel))

/-- The long name "a.txt" in the first slot of the root directory, padded with 0xFFFF. -/
def longNameVolume : Disk :=
  ⟨overwrite (tinyVolume 4).data 1024
    [0x41,0x61,0,0x2E,0,0x74,0,0x78,0,0x74,0,0x0F,0,0x88,0,0,0xFF,0xFF,0xFF,0xFF,0xFF,0xFF,0xFF,0xFF,0xFF,0xFF,0,0,
      0xFF,0xFF,0xFF,0xFF]⟩

/-- Its padding is taken for cluster 0xFFFF0000. -/
theorem long_name_panics : Chained (tinyDriver 4) (viewOf (tinyDriver 4) longNameVolume) 2 [2] ∧
    readDirectoryEntries (tinyDriver 4) 2 longNameVolume = .error .panic :=
  ⟨root_chained (by decide +kernel),by decide +kernel⟩

end MofuOS.Filesystem.Fat32.Fat32Driver
