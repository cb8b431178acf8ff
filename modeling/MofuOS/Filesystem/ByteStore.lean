import MofuOS.Filesystem.FileCache
import MofuOS.DataStructures.HashMapFxRefinement

/-! The drivers that store a byte string per node: those whose calls may fail, those that
never fail, and one of these to compute with over the kernel's own hash map. -/
namespace MofuOS.Filesystem
open Lib

/-- A driver whose files are byte strings and whose calls may fail. A call that asks or fails
changes no file, save that a failed write may leave any bytes in its own file, no more than it
would have had. Asking for the size of a file too long for a usize may do anything. -/
class FallibleStore (D : Type) [CacheFilesystemDriver D] where
  content : D → FileNodeHandle → List UInt8
  readFileInto_returns : ∀ {h : FileNodeHandle} {out out' : List UInt8} {d d' : D} {r : Except FileSystemError Nat},
    CacheFilesystemDriver.readFileInto h out d = .ok (r,out',d') → out.length = (content d h).length →
      content d' = content d ∧ ∀ n, r = .ok n → n = out.length ∧ out' = content d h
  writeFile_ok : ∀ {h : FileNodeHandle} {o n : Nat} {data : List UInt8} {d d' : D},
    CacheFilesystemDriver.writeFile h o data d = .ok (.ok n,d') →
      content d' = Function.update (content d) h (splice (content d h) o data)
  writeFile_error : ∀ {h : FileNodeHandle} {o : Nat} {data : List UInt8} {d d' : D} {e : FileSystemError},
    CacheFilesystemDriver.writeFile h o data d = .ok (.error e,d') →
      ∃ bytes, bytes.length ≤ (splice (content d h) o data).length ∧ content d' = Function.update (content d) h bytes
  fileSize_returns : ∀ {h : FileNodeHandle} {d d' : D} {r : Except FileSystemError Nat},
    CacheFilesystemDriver.fileSize h d = .ok (r,d') → (content d h).length < usizeBound →
      content d' = content d ∧ ∀ n, r = .ok n → n = (content d h).length
  getNode_returns : ∀ {h : FileNodeHandle} {d d' : D} {r : Except FileSystemError FileNode},
    CacheFilesystemDriver.getNode h d = .ok (r,d') → content d' = content d

/-- A driver whose calls all succeed and whose files are byte strings, written by splicing.
A length that is no usize cannot be reported. -/
class ByteStore (D : Type) [CacheFilesystemDriver D] where
  content : D → FileNodeHandle → List UInt8
  readFileInto_eq : ∀ (h : FileNodeHandle) (out : List UInt8) (d : D), out.length = (content d h).length →
    ∃ d', CacheFilesystemDriver.readFileInto h out d = .ok (.ok out.length,content d h,d') ∧ content d' = content d
  writeFile_eq : ∀ (h : FileNodeHandle) (o : Nat) (data : List UInt8) (d : D),
    ∃ d', CacheFilesystemDriver.writeFile h o data d = .ok (.ok data.length,d') ∧
      content d' = Function.update (content d) h (splice (content d h) o data)
  fileSize_eq : ∀ (h : FileNodeHandle) (d : D), (content d h).length < usizeBound →
    ∃ d', CacheFilesystemDriver.fileSize h d = .ok (.ok (content d h).length,d') ∧ content d' = content d
  getNode_eq : ∀ (h : FileNodeHandle) (d : D),
    ∃ node d', CacheFilesystemDriver.getNode h d = .ok (.ok node,d') ∧ content d' = content d

instance ByteStore.fallible {D : Type} [CacheFilesystemDriver D] [ByteStore D] : FallibleStore D where
  content := content
  readFileInto_returns {h out out' d d' r} hr hlen := by
    obtain ⟨d1,heq,hc⟩ := readFileInto_eq h out d hlen
    rw [heq] at hr
    cases hr
    exact ⟨hc,fun n hn => by cases hn; exact ⟨rfl,rfl⟩⟩
  writeFile_ok {h o n data d d'} hw := by
    obtain ⟨d1,heq,hc⟩ := writeFile_eq h o data d
    rw [heq] at hw
    cases hw
    exact hc
  writeFile_error {h o data d d' e} hw := by
    obtain ⟨d1,heq,_⟩ := writeFile_eq h o data d
    rw [heq] at hw
    cases hw
  fileSize_returns {h d d' r} hq hlt := by
    obtain ⟨d1,heq,hc⟩ := fileSize_eq h d hlt
    rw [heq] at hq
    cases hq
    exact ⟨hc,fun n hn => (Except.ok.inj hn).symm⟩
  getNode_returns {h d d' r} hn := by
    obtain ⟨node,d1,heq,hc⟩ := getNode_eq h d
    rw [heq] at hn
    cases hn
    exact hc

/-- The hash maps of the cache, which start with sixteen slots here. -/
abbrev NodeTable : Type → Type := DataStructures.GrowingTable .dev FileNodeHandle

/-- Byte strings by handle. -/
structure ByteDriver where
  content : FileNodeHandle → List UInt8

namespace ByteDriver

def node (h : FileNodeHandle) (size : Nat) : FileNode := ⟨h,[],.file,size,0,0,.fileReadWrite⟩

instance : CacheFilesystemDriver ByteDriver where
  readFileInto h out d := .ok (.ok (min out.length (d.content h).length),
    overwrite out 0 ((d.content h).take out.length),d)
  writeFile h o data d := .ok (.ok data.length,⟨Function.update d.content h (splice (d.content h) o data)⟩)
  fileSize h d :=
    if (d.content h).length < usizeBound then .ok (.ok (d.content h).length,d)
    else .ok (.error .fileSizeExceeded,d)
  getNode h d := .ok (.ok (node h (d.content h).length),d)
  readFileInto_length h := by
    cases h
    apply length_overwrite
    simp only [Nat.zero_add,List.length_take]
    omega
  readFileInto_le h := by
    cases h
    exact Nat.min_le_left ..
  fileSize_lt h := by
    split_ifs at h with hlt
    · cases h
      exact hlt
    · cases h

instance : ByteStore ByteDriver where
  content := content
  readFileInto_eq h out d hlen := by
    refine ⟨d,?_,rfl⟩
    simp only [CacheFilesystemDriver.readFileInto,hlen,Nat.min_self,List.take_length,overwrite_zero]
    rw [← hlen,List.drop_length,List.append_nil]
  writeFile_eq h o data d := ⟨_,rfl,rfl⟩
  fileSize_eq h d hlt := ⟨d,if_pos hlt,rfl⟩
  getNode_eq h d := ⟨_,d,rfl,rfl⟩

end ByteDriver

/-- Byte strings by handle, and which of the coming calls fail. -/
structure FlakyDriver where
  store : ByteDriver
  fails : List Bool

namespace FlakyDriver

/-- The next call fails and changes nothing, or is the store's own. -/
def call {α : Type} (x : FsProg ByteDriver α) : FsProg FlakyDriver α := fun d =>
  if d.fails.head? = some true then .ok (.error .ioError,{ d with fails := d.fails.tail })
  else
    match x d.store with
    | .ok (r,store) => .ok (r,⟨store,d.fails.tail⟩)
    | .error w => .error w

instance : CacheFilesystemDriver FlakyDriver where
  readFileInto h out d :=
    if d.fails.head? = some true then .ok (.error .ioError,out,{ d with fails := d.fails.tail })
    else
      match CacheFilesystemDriver.readFileInto h out d.store with
      | .ok (r,out',store) => .ok (r,out',⟨store,d.fails.tail⟩)
      | .error w => .error w
  writeFile h o data := call (CacheFilesystemDriver.writeFile h o data)
  fileSize h := call (CacheFilesystemDriver.fileSize h)
  getNode h := call (CacheFilesystemDriver.getNode h)
  readFileInto_length h := by
    split_ifs at h with hf
    · cases h
      rfl
    · split at h
      · cases h
        exact CacheFilesystemDriver.readFileInto_length ‹_›
      · cases h
  readFileInto_le h := by
    split_ifs at h with hf
    · cases h
    · split at h
      · cases h
        exact CacheFilesystemDriver.readFileInto_le ‹_›
      · cases h
  fileSize_lt h := by
    unfold call at h
    split_ifs at h with hf
    · cases h
    · split at h
      · cases h
        exact CacheFilesystemDriver.fileSize_lt ‹_›
      · cases h

theorem call_returns {α : Type} {x : FsProg ByteDriver α} {d d' : FlakyDriver} {r : Except FileSystemError α}
    (h : call x d = .ok (r,d')) : (d'.store = d.store ∧ r = .error .ioError) ∨ x d.store = .ok (r,d'.store) := by
  unfold call at h
  split_ifs at h with hf
  · cases h
    exact .inl ⟨rfl,rfl⟩
  · split at h
    · cases h
      exact .inr ‹_›
    · cases h

instance : FallibleStore FlakyDriver where
  content d := d.store.content
  readFileInto_returns {h out out' d d' r} hr hlen := by
    simp only [CacheFilesystemDriver.readFileInto] at hr
    split_ifs at hr with hf
    · cases hr
      exact ⟨rfl,nofun⟩
    · cases hr
      refine ⟨rfl,fun n hn => ?_⟩
      cases hn
      rw [hlen,Nat.min_self,List.take_length]
      refine ⟨rfl,?_⟩
      rw [overwrite_zero,← hlen,List.drop_length,List.append_nil]
  writeFile_ok {h o n data d d'} hw := by
    obtain ⟨_,hr⟩ | hx := call_returns hw
    · cases hr
    · exact FallibleStore.writeFile_ok hx
  writeFile_error {h o data d d' e} hw := by
    obtain ⟨hd,_⟩ | hx := call_returns hw
    · refine ⟨d.store.content h,?_,?_⟩
      · rw [length_splice]
        exact Nat.le_max_left ..
      · rw [hd,Function.update_eq_self]
    · exact FallibleStore.writeFile_error hx
  fileSize_returns {h d d' r} hq hlt := by
    obtain ⟨hd,rfl⟩ | hx := call_returns hq
    · exact ⟨congrArg _ hd,nofun⟩
    · exact FallibleStore.fileSize_returns hx hlt
  getNode_returns {h d d' r} hn := by
    obtain ⟨hd,_⟩ | hx := call_returns hn
    · exact congrArg _ hd
    · exact FallibleStore.getNode_returns hx

end FlakyDriver
end MofuOS.Filesystem
