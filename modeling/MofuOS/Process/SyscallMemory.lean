import MofuOS.Process.Syscall

/-! Which system calls stay inside user memory: all but three check the range they use. -/
namespace MofuOS.Process
open Lib
open Traced

/-- A range of no bytes touches nothing. -/
def InUser (ptr len : Nat) : Prop := len = 0 ∨ ptr ≠ 0 ∧ ptr + len ≤ userMemMaxAddress

def UserAccess.inUser (access : UserAccess) : Prop := InUser access.ptr access.len

theorem validateUserPtr_iff {ptr len : Nat} : validateUserPtr ptr len = true ↔ ptr ≠ 0 ∧ ptr + len ≤ userMemMaxAddress := by
  have h : validateUserPtr ptr len = true ↔
      (ptr ≠ 0 ∧ min (ptr + len) usizeMax ≤ userMemMaxAddress) ∧ ptr ≤ min (ptr + len) usizeMax := by
    simp only [validateUserPtr,Bool.and_eq_true,bne_iff_ne,decide_eq_true_eq]
  rw [h,usizeMax,userMemMaxAddress]
  omega

theorem InUser.of_validate {ptr len : Nat} (h : validateUserPtr ptr len = true) : InUser ptr len := .inr (validateUserPtr_iff.mp h)

/-- A part of a range. -/
theorem InUser.mono {ptr len ptr' len' : Nat} (h : validateUserPtr ptr len = true) (hptr : ptr ≤ ptr') (hlen : ptr' + len' ≤ ptr + len) :
    InUser ptr' len' := by
  obtain ⟨hne,hle⟩ := validateUserPtr_iff.mp h
  exact .inr ⟨by omega,by omega⟩

/-- The ranges a call is to read or write for its caller. -/
def SyscallFrame.ranges (cachedFs : Bool) (frame : SyscallFrame) : List (Nat × Nat) :=
  let path := (frame.arg1.toNat,frame.arg2.toNat)
  let buffer := (frame.arg3.toNat,frame.arg4.toNat)
  match frame.syscallNum with
  | .createProcess => [path,buffer]
  | .write => [(frame.arg2.toNat,frame.arg3.toNat)]
  | .getWindowInfo => [(frame.arg2.toNat,sizeOfWindowInfo)]
  | .openFile | .createFile | .createDir | .delete => [path]
  | .readFile | .writeFile => [buffer]
  | .statFile => [path,(frame.arg3.toNat,sizeOfStatFlat)]
  | .listDir => [path,buffer]
  | .pinFile | .unpinFile | .reserveCache | .evictDirectory => if cachedFs then [path] else []
  | .getCacheStats => if cachedFs then [(frame.arg1.toNat,sizeOfCacheStatsFlat)] else []
  | .createCircularBuffer => [(frame.arg3.toNat,sizeOfCircularBufferInfo)]
  | .getCpuInfo => [(frame.arg1.toNat,sizeOfCpuInfoFlat)]
  | .futexWait => [(frame.arg1.toNat,4)]
  | _ => []

/-- The reply to the caller, whether or not the call ended early. -/
def replyOf : Except Reply UInt64 → Reply
  | .ok value => some value
  | .error reply => reply

def isError (syscall : SyscallNumber) (reply : Reply) : Prop := reply = some u64Max ∨ syscall = .getCpuInfo ∧ reply = some 2

/-- The call keeps to user memory, and gives up where a range it is to use lies outside. -/
def KeepsToUser {κ : Type} (services : Services κ) (rounds : Nat) (frame : SyscallFrame) (k : κ) : Prop :=
  let run := dispatchSyscall services rounds frame k
  (∀ access ∈ run.2.2, access.inUser) ∧
    ((∃ range ∈ frame.ranges services.cachedFs, ¬InUser range.1 range.2) → isError frame.syscallNum (replyOf run.1))

/-- The calls that use a range they have not checked find it in user memory. -/
def RangesInUser (frame : SyscallFrame) : Prop :=
  match frame.syscallNum with
  | .createProcess => InUser frame.arg1.toNat frame.arg2.toNat ∧ InUser frame.arg3.toNat frame.arg4.toNat
  | .write => InUser frame.arg2.toNat frame.arg3.toNat
  | .getCpuInfo => validateUserPtr frame.arg1.toNat frame.arg2.toNat = true → InUser frame.arg1.toNat sizeOfCpuInfoFlat
  | _ => True

section Handlers
variable {κ : Type} (services : Services κ) {frame : SyscallFrame} {rounds : Nat}

/-- What the reply of a call has to be, given the ranges it is to use. -/
def Answers (syscall : SyscallNumber) (ranges : List (Nat × Nat)) (result : Except Reply UInt64) : Prop :=
  (∃ range ∈ ranges, ¬InUser range.1 range.2) → isError syscall (replyOf result)

theorem answers_error {syscall : SyscallNumber} {ranges : List (Nat × Nat)} : Answers syscall ranges (.error (some u64Max)) :=
  fun _ => .inl rfl

theorem answers_inUser {syscall : SyscallNumber} {ranges : List (Nat × Nat)} {result : Except Reply UInt64}
    (h : ∀ range ∈ ranges, InUser range.1 range.2) : Answers syscall ranges result := fun ⟨range,hr,hnot⟩ => absurd (h range hr) hnot

theorem answers_nil {syscall : SyscallNumber} {result : Except Reply UInt64} : Answers syscall [] result := answers_inUser nofun

/-- A handler keeps to user memory and answers for the ranges. -/
abbrev Safe (syscall : SyscallNumber) (ranges : List (Nat × Nat)) (x : Handler κ UInt64) : Prop :=
  Gives UserAccess.inUser (Answers syscall ranges) x

variable {syscall : SyscallNumber} {ranges : List (Nat × Nat)}

/-- A path is in user memory where there is one. -/
theorem userPath_bind {ptr len : UInt64} {f : String → Handler κ UInt64}
    (h : InUser ptr.toNat len.toNat → ∀ path, Safe syscall ranges (f path)) : Safe syscall ranges (userPath services ptr len >>= f) := by
  have hread : Gives UserAccess.inUser (fun r => ∃ path, r = .ok path ∧ (path.isSome = true → InUser ptr.toNat len.toNat))
      (readUserString services ptr len) := by
    rw [readUserString]
    split_ifs with hv
    · exact gives_emit_bind (.of_validate hv) (gives_look_bind fun _ => gives_pure ⟨_,rfl,fun _ => .of_validate hv⟩)
    · exact gives_pure ⟨none,rfl,nofun⟩
  have hpath : Gives UserAccess.inUser (fun r => (∃ path, r = .ok path ∧ InUser ptr.toNat len.toNat) ∨ r = .error (some u64Max))
      (userPath services ptr len) := by
    refine gives_bind hread (fun _ ⟨_,he,_⟩ => nomatch he) fun path ⟨path',he,hin⟩ => ?_
    cases he
    cases path with
    | none => exact gives_stop (.inr rfl)
    | some path => exact gives_pure (.inl ⟨path,rfl,hin rfl⟩)
  refine gives_bind hpath (fun e he => ?_) fun path hp => ?_
  · rcases he with ⟨_,he,_⟩ | he
    · cases he
    · cases he
      exact answers_error
  · rcases hp with ⟨_,_,hin⟩ | he
    · exact h hin path
    · cases he

/-- Nothing is left to answer for once all ranges are in user memory. -/
theorem safe_ofOption (hranges : ∀ range ∈ ranges, InUser range.1 range.2) (o : Option UInt64) :
    Safe syscall ranges (ofOption (some u64Max) o : Handler κ UInt64) := by
  cases o with
  | none => exact gives_stop answers_error
  | some value => exact gives_pure (answers_inUser hranges)

theorem inUser_one {ptr len : Nat} (h : InUser ptr len) : ∀ range ∈ [(ptr,len)], InUser range.1 range.2 := by
  rw [List.forall_mem_singleton]
  exact h

theorem inUser_two {ptr len ptr' len' : Nat} (h : InUser ptr len) (h' : InUser ptr' len') :
    ∀ range ∈ [(ptr,len),(ptr',len')], InUser range.1 range.2 := by
  rw [List.forall_mem_cons]
  exact ⟨h,inUser_one h'⟩

theorem createProcess_safe (h : InUser frame.arg1.toNat frame.arg2.toNat) (h' : InUser frame.arg3.toNat frame.arg4.toNat) :
    Safe .createProcess [(frame.arg1.toNat,frame.arg2.toNat),(frame.arg3.toNat,frame.arg4.toNat)] (createProcess services frame) := by
  refine gives_emit_bind h (gives_emit_bind h' (gives_require_bind answers_error fun _ => ?_))
  refine gives_call_bind fun _ => gives_require_bind answers_error fun _ => ?_
  exact gives_pure (answers_inUser (inUser_two h h'))

theorem write_safe (h : InUser frame.arg2.toNat frame.arg3.toNat) :
    Safe .write [(frame.arg2.toNat,frame.arg3.toNat)] (write frame : Handler κ UInt64) :=
  gives_emit_bind h (gives_pure (answers_inUser (inUser_one h)))

theorem getCpuInfo_safe (h : validateUserPtr frame.arg1.toNat frame.arg2.toNat = true → InUser frame.arg1.toNat sizeOfCpuInfoFlat) :
    Safe .getCpuInfo [(frame.arg1.toNat,sizeOfCpuInfoFlat)] (getCpuInfo frame : Handler κ UInt64) := by
  refine gives_require_bind (fun _ => .inr ⟨rfl,rfl⟩) fun hv => ?_
  exact gives_emit_bind (h hv) (gives_pure (answers_inUser (inUser_one (h hv))))

theorem terminateProcess_safe : Safe .terminateProcess [] (terminateProcess services frame) := by
  refine gives_look_bind fun _ => gives_require_bind answers_error fun _ => gives_look_bind fun _ => ?_
  refine gives_ofOption_bind answers_error fun _ _ => gives_require_bind answers_error fun _ => ?_
  split_ifs
  · exact gives_stop answers_nil
  · exact gives_call_bind fun _ => gives_require_bind answers_error fun _ => gives_pure answers_nil

theorem createWindow_safe : Safe .createWindow [] (createWindow services frame) := by
  refine gives_look_bind fun _ => gives_look_bind fun _ => gives_require_bind answers_error fun _ => ?_
  exact gives_call_bind fun _ => gives_pure answers_nil

theorem allocate_safe : Safe .allocate [] (allocate services frame) :=
  gives_look_bind fun _ => gives_call_bind fun _ => safe_ofOption (List.forall_mem_nil _) _

theorem mapWindowBuffer_safe {pageSize : Nat} : Safe .mapWindowBuffer [] (mapWindowBuffer services pageSize frame) := by
  refine gives_look_bind fun _ => gives_look_bind fun _ => gives_ofOption_bind answers_error fun _ _ => ?_
  refine gives_require_bind answers_error fun _ => gives_look_bind fun _ => gives_ofOption_bind answers_error fun _ _ => ?_
  refine gives_look_bind fun _ => gives_ofOption_bind answers_error fun _ _ => ?_
  split_ifs
  · exact gives_pure answers_nil
  · refine gives_call_bind fun _ => gives_require_bind answers_error fun _ => gives_call_bind fun _ => ?_
    split_ifs
    · exact gives_pure answers_nil
    · exact gives_act_bind (gives_stop answers_nil)

theorem getWindowSize_safe : Safe .getWindowSize [] (getWindowSize services frame) :=
  gives_look_bind fun _ => gives_ofOption_bind answers_error fun _ _ => gives_pure answers_nil

theorem getWindowInfo_safe : Safe .getWindowInfo [(frame.arg2.toNat,sizeOfWindowInfo)] (getWindowInfo services frame) := by
  refine gives_require_bind answers_error fun hv => gives_look_bind fun _ => gives_require_bind answers_error fun _ => ?_
  exact gives_emit_bind (.of_validate hv) (gives_pure (answers_inUser (inUser_one (.of_validate hv))))

theorem openFile_safe : Safe .openFile [(frame.arg1.toNat,frame.arg2.toNat)] (openFile services frame) := by
  refine userPath_bind services fun hpath _ => gives_call_bind fun _ => gives_ofOption_bind answers_error fun _ _ => ?_
  refine gives_look_bind fun _ => gives_look_bind fun _ => gives_ofOption_bind answers_error fun _ _ => ?_
  exact gives_act_bind (gives_pure (answers_inUser (inUser_one hpath)))

theorem closeFile_safe : Safe .closeFile [] (closeFile services frame) := by
  refine gives_look_bind fun _ => gives_look_bind fun _ => gives_ofOption_bind answers_error fun _ _ => ?_
  exact gives_require_bind answers_error fun _ => gives_act_bind (gives_pure answers_nil)

theorem openNode_bind {fd : Nat} {flag : UInt8} {f : Nat → Handler κ UInt64} (h : ∀ nodeId, Safe syscall ranges (f nodeId)) :
    Safe syscall ranges (openNode services fd flag >>= f) := by
  have hnode : Gives UserAccess.inUser (fun r => (∃ nodeId, r = .ok nodeId) ∨ r = .error (some u64Max)) (openNode services fd flag) := by
    refine gives_look_bind fun _ => gives_look_bind fun _ => gives_ofOption_bind (.inr rfl) fun _ _ => ?_
    refine gives_ofOption_bind (.inr rfl) fun _ _ => gives_require_bind (.inr rfl) fun _ => ?_
    exact gives_pure (.inl ⟨_,rfl⟩)
  refine gives_bind hnode (fun e he => ?_) fun nodeId _ => h nodeId
  rcases he with ⟨_,he⟩ | he
  · cases he
  · cases he
    exact answers_error

theorem readFile_safe : Safe .readFile [(frame.arg3.toNat,frame.arg4.toNat)] (readFile services frame) := by
  refine gives_require_bind answers_error fun hv => openNode_bind services fun _ => gives_emit_bind (.of_validate hv) ?_
  exact gives_call_bind fun _ => safe_ofOption (inUser_one (.of_validate hv)) _

theorem writeFile_safe : Safe .writeFile [(frame.arg3.toNat,frame.arg4.toNat)] (writeFile services frame) := by
  refine gives_require_bind answers_error fun hv => openNode_bind services fun _ => gives_emit_bind (.of_validate hv) ?_
  exact gives_call_bind fun _ => safe_ofOption (inUser_one (.of_validate hv)) _

theorem statFile_safe :
    Safe .statFile [(frame.arg1.toNat,frame.arg2.toNat),(frame.arg3.toNat,sizeOfStatFlat)] (statFile services frame) := by
  refine userPath_bind services fun hpath _ => gives_require_bind answers_error fun hv => gives_call_bind fun _ => ?_
  refine gives_ofOption_bind answers_error fun _ _ => gives_emit_bind (.of_validate hv) ?_
  exact gives_pure (answers_inUser (inUser_two hpath (.of_validate hv)))

/-- The entries that fit into the range stay inside it. -/
theorem writeEntries_gives {ptr len : Nat} (hv : validateUserPtr ptr len = true) (i count : Nat)
    (hfit : (i + count) * sizeOfDirEntryFlat ≤ len) :
    Gives UserAccess.inUser (fun r => ∃ a, r = .ok a) (writeEntries ptr i count : Handler κ Unit) := by
  induction count generalizing i with
  | zero => exact gives_pure ⟨_,rfl⟩
  | succ count ih =>
    refine gives_emit_bind (.mono hv (Nat.le_add_right _ _) ?_) (ih (i + 1) (by rwa [Nat.add_assoc,Nat.add_comm 1]))
    have hnext : (i + 1) * sizeOfDirEntryFlat ≤ (i + (count + 1)) * sizeOfDirEntryFlat := Nat.mul_le_mul_right _ (by omega)
    rw [Nat.succ_mul] at hnext
    dsimp only
    omega

theorem listDir_safe :
    Safe .listDir [(frame.arg1.toNat,frame.arg2.toNat),(frame.arg3.toNat,frame.arg4.toNat)] (listDir services frame) := by
  refine userPath_bind services fun hpath _ => gives_require_bind answers_error fun hv => gives_call_bind fun _ => ?_
  refine gives_ofOption_bind answers_error fun entries _ => ?_
  have hfit : (0 + min entries (frame.arg4.toNat / sizeOfDirEntryFlat)) * sizeOfDirEntryFlat ≤ frame.arg4.toNat := by
    rw [Nat.zero_add]
    exact (Nat.mul_le_mul_right _ (Nat.min_le_right _ _)).trans (Nat.div_mul_le_self _ _)
  refine gives_bind (writeEntries_gives hv 0 _ hfit) (fun _ ⟨_,he⟩ => nomatch he) fun _ _ => ?_
  exact gives_pure (answers_inUser (inUser_two hpath (.of_validate hv)))

theorem pathCall_safe (service : String → κ → Bool × κ) :
    Safe syscall [(frame.arg1.toNat,frame.arg2.toNat)] (pathCall services service frame) := by
  refine userPath_bind services fun hpath _ => gives_call_bind fun _ => gives_require_bind answers_error fun _ => ?_
  exact gives_pure (answers_inUser (inUser_one hpath))

theorem cachePathCall_safe (service : String → κ → Bool × κ) :
    Safe syscall (if services.cachedFs then [(frame.arg1.toNat,frame.arg2.toNat)] else []) (cachePathCall services service frame) := by
  refine gives_require_bind answers_error fun hcached => ?_
  rw [if_pos hcached]
  exact pathCall_safe services service

theorem reserveCache_safe :
    Safe syscall (if services.cachedFs then [(frame.arg1.toNat,frame.arg2.toNat)] else []) (reserveCache services frame) := by
  refine gives_require_bind answers_error fun hcached => userPath_bind services fun hpath _ => ?_
  refine gives_require_bind answers_error fun _ => gives_call_bind fun _ => gives_require_bind answers_error fun _ => ?_
  rw [if_pos hcached]
  exact gives_pure (answers_inUser (inUser_one hpath))

theorem evictDirectory_safe :
    Safe syscall (if services.cachedFs then [(frame.arg1.toNat,frame.arg2.toNat)] else []) (evictDirectory services frame) := by
  refine gives_require_bind answers_error fun hcached => userPath_bind services fun hpath _ => gives_call_bind fun _ => ?_
  rw [if_pos hcached]
  exact safe_ofOption (inUser_one hpath) _

theorem getCacheStats_safe :
    Safe syscall (if services.cachedFs then [(frame.arg1.toNat,sizeOfCacheStatsFlat)] else []) (getCacheStats services frame) := by
  rw [getCacheStats]
  split_ifs
  · refine gives_require_bind answers_error fun hv => gives_emit_bind (.of_validate hv) ?_
    exact gives_pure (answers_inUser (inUser_one (.of_validate hv)))
  · exact gives_pure answers_nil

theorem flushFileCache_safe : Safe syscall [] (flushFileCache services) := by
  rw [flushFileCache]
  split_ifs
  · refine gives_look_bind fun _ => gives_look_bind fun _ => gives_ofOption_bind answers_error fun _ _ => ?_
    exact gives_call_bind fun _ => gives_require_bind answers_error fun _ => gives_pure answers_nil
  · exact gives_pure answers_nil

theorem createCircularBuffer_safe :
    Safe .createCircularBuffer [(frame.arg3.toNat,sizeOfCircularBufferInfo)] (createCircularBuffer services frame) := by
  refine gives_require_bind answers_error fun hv => gives_look_bind fun _ => gives_call_bind fun _ => ?_
  refine gives_require_bind answers_error fun _ => gives_emit_bind (.of_validate hv) ?_
  exact gives_pure (answers_inUser (inUser_one (.of_validate hv)))

/-- A wait touches what its condition does, in every round. -/
theorem blockCurrentTaskUntilEvent_gives {queue : WaitQueue} {condition : Handler κ Bool}
    (h : Gives UserAccess.inUser (fun r => ∃ b, r = .ok b) condition) (rounds : Nat) :
    Gives UserAccess.inUser (fun r => r = .ok () ∨ r = .error none) (blockCurrentTaskUntilEvent services queue condition rounds) := by
  have hready : Gives UserAccess.inUser (fun r => ∃ b, r = .ok b) (eventOrKill services condition) := by
    refine gives_bind h (fun _ ⟨_,he⟩ => nomatch he) fun b _ => ?_
    split_ifs
    · exact gives_pure ⟨_,rfl⟩
    · exact gives_look fun _ => ⟨_,rfl⟩
  induction rounds with
  | zero => exact gives_stop (.inr rfl)
  | succ rounds ih =>
    refine gives_bind hready (fun _ ⟨_,he⟩ => nomatch he) fun b _ => ?_
    split_ifs
    · exact gives_pure (.inl rfl)
    · refine gives_act_bind (gives_bind hready (fun _ ⟨_,he⟩ => nomatch he) fun b _ => ?_)
      split_ifs
      · exact gives_act_bind (gives_act_bind ih)
      · exact gives_act_bind ih

theorem waitForInput_safe : Safe .waitForInput [] (waitForInput services rounds) := by
  refine gives_look_bind fun _ => gives_bind (blockCurrentTaskUntilEvent_gives services (gives_look fun _ => ⟨_,rfl⟩) rounds) ?_ ?_
  · exact fun _ _ => answers_nil
  · exact fun _ _ => gives_pure answers_nil

theorem futexWait_safe : Safe .futexWait [(frame.arg1.toNat,4)] (futexWait services rounds frame) := by
  refine gives_require_bind answers_error fun hv => ?_
  have hcondition : ∀ expected, Gives UserAccess.inUser (fun r => ∃ b, r = .ok b)
      (do pure ((← loadWord services frame.arg1.toNat) != expected) : Handler κ Bool) := by
    intro expected
    have hload : Gives UserAccess.inUser (fun r => ∃ word, r = .ok word) (loadWord services frame.arg1.toNat) :=
      gives_emit_bind (.of_validate hv) (gives_look fun _ => ⟨_,rfl⟩)
    exact gives_bind hload (fun _ ⟨_,he⟩ => nomatch he) fun _ _ => gives_pure ⟨_,rfl⟩
  have hanswers : ∀ result, Answers .futexWait [(frame.arg1.toNat,4)] result := fun _ => answers_inUser (inUser_one (.of_validate hv))
  exact gives_bind (blockCurrentTaskUntilEvent_gives services (hcondition _) rounds) (fun _ _ => hanswers _) fun _ _ =>
    gives_pure (hanswers _)

/-- Every call answers for its ranges and, where it uses them unchecked, needs them in user memory. -/
theorem dispatchSyscall_safe (h : RangesInUser frame) :
    Safe frame.syscallNum (frame.ranges services.cachedFs) (dispatchSyscall services rounds frame) := by
  have hact : ∀ {syscall} (f : κ → κ), Safe syscall [] (do act f; pure 0) := fun _ => gives_act_bind (gives_pure answers_nil)
  obtain ⟨syscallNum,arg1,arg2,arg3,arg4⟩ := frame
  cases syscallNum with
  | createProcess => exact createProcess_safe services h.1 h.2
  | terminateProcess => exact terminateProcess_safe services
  | write => exact write_safe h
  | createWindow => exact createWindow_safe services
  | getPid => exact gives_look_bind fun _ => gives_pure answers_nil
  | exit => exact gives_stop answers_nil
  | allocate => exact allocate_safe services
  | mapWindowBuffer => exact mapWindowBuffer_safe services
  | getWindowSize => exact getWindowSize_safe services
  | getWindowInfo => exact getWindowInfo_safe services
  | openFile => exact openFile_safe services
  | closeFile => exact closeFile_safe services
  | readFile => exact readFile_safe services
  | writeFile => exact writeFile_safe services
  | statFile => exact statFile_safe services
  | listDir => exact listDir_safe services
  | createFile | createDir | delete => exact pathCall_safe services _
  | pinFile | unpinFile => exact cachePathCall_safe services _
  | reserveCache => exact reserveCache_safe services
  | evictDirectory => exact evictDirectory_safe services
  | getCacheStats => exact getCacheStats_safe services
  | flushFileCache => exact flushFileCache_safe services
  | createCircularBuffer => exact createCircularBuffer_safe services
  | getCpuInfo => exact getCpuInfo_safe h
  | waitForInput => exact waitForInput_safe services
  | futexWait => exact futexWait_safe services
  | destroyWindow | yield | presentWindow | focusWindow | sleepMs | futexWake => exact hact _
  | read | getLine | loadFile | unloadFile | getProcessInfo => exact gives_stop answers_error

/-- A call keeps to user memory exactly when the ranges it does not check are in it. -/
theorem keepsToUser_iff (rounds : Nat) (frame : SyscallFrame) (k : κ) : KeepsToUser services rounds frame k ↔ RangesInUser frame := by
  constructor
  · rintro ⟨hin,_⟩
    obtain ⟨syscallNum,arg1,arg2,arg3,arg4⟩ := frame
    cases syscallNum with
    | createProcess =>
      exact ⟨hin ⟨false,_,_⟩ (mem_emit_bind _ _ _),hin ⟨false,_,_⟩ (mem_emit_bind_of_mem (mem_emit_bind _ _ _))⟩
    | write => exact hin ⟨false,_,_⟩ (mem_emit_bind _ _ _)
    | getCpuInfo =>
      intro hv
      refine hin ⟨true,_,sizeOfCpuInfoFlat⟩ ?_
      rw [dispatchSyscall,getCpuInfo,hv,require_true_bind]
      exact mem_emit_bind _ _ _
    | _ => trivial
  · exact fun h => dispatchSyscall_safe services h k

end Handlers

/-- Standard output is written from an address of the kernel. -/
def writeFromKernel : SyscallFrame := { syscallNum := .write, arg1 := 1, arg2 := 0xFFFF_8000_0000_0000, arg3 := 1 }

theorem write_reads_kernel : ¬∀ frame, KeepsToUser (default : Services Unit) 0 frame () := by
  intro h
  have haccess : UserAccess.inUser ⟨false,0xFFFF_8000_0000_0000,1⟩ := (h writeFromKernel).1 _ (mem_emit_bind _ _ _)
  rcases haccess with hlen | ⟨_,hle⟩
  · cases hlen
  · exact absurd hle (by decide)

end MofuOS.Process
