import MofuOS.Events.EventBuffer

/-! The event ring is a bounded queue. The count follows the answers exactly, the indices run
ahead of it by one at most, and the slot being written is behind the queue. -/
namespace MofuOS.Events
open Lib
open Answer (pushes takes)
variable {c c' : Channel} {e event : InputEvent} {k : Nat} {q : List InputEvent}

/-- The first k double words are the same. -/
def InputEvent.Agree (k : Nat) (a b : InputEvent) : Prop :=
  (0 < k → a.eventType = b.eventType ∧ a.pad = b.pad) ∧ (1 < k → a.value = b.value) ∧ (2 < k → a.extra = b.extra) ∧
    (3 < k → a.modifiers = b.modifiers)

theorem InputEvent.Agree.copyWord (h : InputEvent.Agree k event e) : InputEvent.Agree (k + 1) (.copyWord k e event) e := by
  obtain ⟨h0,h1,h2,_⟩ := h
  obtain _ | _ | _ | k := k
  · exact ⟨fun _ => ⟨rfl,rfl⟩,by omega,by omega,by omega⟩
  · exact ⟨fun _ => h0 (by omega),fun _ => rfl,by omega,by omega⟩
  · exact ⟨fun _ => h0 (by omega),fun _ => h1 (by omega),fun _ => rfl,by omega⟩
  · exact ⟨fun _ => h0 (by omega),fun _ => h1 (by omega),fun _ => h2 (by omega),fun _ => rfl⟩

theorem InputEvent.Agree.zero : InputEvent.Agree 0 event e := ⟨nofun,nofun,nofun,nofun⟩

theorem InputEvent.Agree.eq (h : InputEvent.Agree k event e) (hk : InputEvent.words ≤ k) : event = e := by
  unfold InputEvent.words at hk
  obtain ⟨h0,h1,h2,h3⟩ := h
  obtain ⟨t,pad,v,x,m⟩ := event
  obtain ⟨ht,hpad⟩ := h0 (by omega)
  have hv := h1 (by omega)
  have hx := h2 (by omega)
  have hm := h3 (by omega)
  cases e
  simp_all

namespace Channel

/-- The events that were pushed and not yet taken. -/
def queue (c : Channel) : List InputEvent := (steps (Answer.apply maxEventCount) c.answers []).getD []

/-- How many events were taken, and how many were pushed. -/
def taken (c : Channel) : Nat := (takes c.answers).length
def pushed (c : Channel) : Nat := (pushes c.answers).length

/-- The answers are those of a queue, the count is its length, and its events are in the slots. -/
structure IsQueue (c : Channel) : Prop where
  legal : steps (Answer.apply maxEventCount) c.answers [] = some c.queue
  count : c.buffer.eventCount.toNat = c.queue.length
  le : c.queue.length ≤ maxEventCount
  laid : Ring.Laid c.buffer.events c.taken c.queue

theorem IsQueue.pushed_eq (h : c.IsQueue) : c.pushed = c.taken + c.queue.length := Answer.length_pushes h.legal

theorem answer_queue {a : Answer InputEvent} (h : c.IsQueue) (ha : Answer.apply maxEventCount a c.queue = some q) :
    steps (Answer.apply maxEventCount) (c.answer a).answers [] = some q ∧ (c.answer a).queue = q := by
  have hsteps : steps (Answer.apply maxEventCount) (c.answer a).answers [] = some q := by
    rw [answer,steps_append h.legal,steps,ha]
    rfl
  exact ⟨hsteps,by rw [queue,hsteps]; rfl⟩

end Channel

/-- What the kernel knows of the page between its steps. -/
def Push.Assert (c : Channel) : Push → Prop
  | .idle => c.buffer.writeIdx.toNat = c.pushed % maxEventCount
  | .loadCount _ => c.buffer.writeIdx.toNat = c.pushed % maxEventCount
  | .loadWriteIdx _ => c.buffer.writeIdx.toNat = c.pushed % maxEventCount ∧ c.queue.length < maxEventCount
  | .storeEvent e idx k => idx = Fin.ofNat maxEventCount c.pushed ∧ c.queue.length < maxEventCount ∧
      InputEvent.Agree k (c.buffer.events idx) e
  | .storeWriteIdx e idx => idx = Fin.ofNat maxEventCount c.pushed ∧ c.queue.length < maxEventCount ∧ c.buffer.events idx = e
  | .addCount e => c.buffer.writeIdx.toNat = (c.pushed + 1) % maxEventCount ∧ c.queue.length < maxEventCount ∧
      c.buffer.events (Fin.ofNat maxEventCount c.pushed) = e
  | .panicked => False

/-- What the program knows of the page between its steps. -/
def TryRead.Assert (c : Channel) : TryRead → Prop
  | .idle => c.buffer.readIdx.toNat = c.taken % maxEventCount
  | .loadCount => c.buffer.readIdx.toNat = c.taken % maxEventCount
  | .loadReadIdx => c.buffer.readIdx.toNat = c.taken % maxEventCount ∧ c.queue ≠ []
  | .resetReadIdx => False
  | .loadEvent idx k event => idx = Fin.ofNat maxEventCount c.taken ∧ ∃ e q, c.queue = e :: q ∧ InputEvent.Agree k event e
  | .storeReadIdx idx event => idx = Fin.ofNat maxEventCount c.taken ∧ ∃ q, c.queue = event :: q
  | .subCount event => c.buffer.readIdx.toNat = (c.taken + 1) % maxEventCount ∧ ∃ q, c.queue = event :: q

def Assert : (a : Party) → Caller a → Channel → Prop
  | .kernel, p, c => Push.Assert c p
  | .user, p, c => TryRead.Assert c p

/-- What a party can rely on while the other moves: the program only takes, the kernel only appends. -/
def Rely : Party → Channel → Channel → Prop
  | .kernel, c, c' => c'.buffer.writeIdx = c.buffer.writeIdx ∧ c'.buffer.events = c.buffer.events ∧ c'.pushed = c.pushed ∧
      c'.queue.length ≤ c.queue.length
  | .user, c, c' => c'.buffer.readIdx = c.buffer.readIdx ∧ c'.taken = c.taken ∧ ∃ new, c'.queue = c.queue ++ new

theorem assert_stable (a : Party) (p : Caller a) (c c' : Channel) (h : Assert a p c) (hr : Rely a c c') : Assert a p c' := by
  cases a with
  | kernel =>
    obtain ⟨hidx,hevents,hpushed,hle⟩ := hr
    simp only [Assert] at h ⊢
    cases p <;> simp only [Push.Assert] at h ⊢
    case idle => rw [hidx,hpushed]; exact h
    case loadCount => rw [hidx,hpushed]; exact h
    case loadWriteIdx => rw [hidx,hpushed]; exact ⟨h.1,by omega⟩
    case storeEvent => rw [hevents,hpushed]; exact ⟨h.1,by omega,h.2.2⟩
    case storeWriteIdx => rw [hevents,hpushed]; exact ⟨h.1,by omega,h.2.2⟩
    case addCount => rw [hidx,hevents,hpushed]; exact ⟨h.1,by omega,h.2.2⟩
  | user =>
    obtain ⟨hidx,htaken,new,hqueue⟩ := hr
    simp only [Assert] at h ⊢
    cases p <;> simp only [TryRead.Assert] at h ⊢
    case idle => rw [hidx,htaken]; exact h
    case loadCount => rw [hidx,htaken]; exact h
    case loadReadIdx =>
      rw [hidx,htaken,hqueue]
      exact ⟨h.1,by simp [h.2]⟩
    case loadEvent =>
      obtain ⟨hi,e,q,hq,hagree⟩ := h
      rw [htaken,hqueue,hq]
      exact ⟨hi,e,q ++ new,rfl,hagree⟩
    case storeReadIdx =>
      obtain ⟨hi,q,hq⟩ := h
      rw [htaken,hqueue,hq]
      exact ⟨hi,q ++ new,rfl⟩
    case subCount =>
      obtain ⟨hi,q,hq⟩ := h
      rw [hidx,htaken,hqueue,hq]
      exact ⟨hi,q ++ new,rfl⟩

/-- A step that answers no call and leaves the queue where it is. -/
private theorem isQueue_of_same (h : c.IsQueue) (ha : c'.answers = c.answers) (hc : c'.buffer.eventCount = c.buffer.eventCount)
    (hl : Ring.Laid c'.buffer.events c.taken c.queue) : c'.IsQueue := by
  have hq : c'.queue = c.queue := by rw [Channel.queue,ha]; rfl
  have ht : c'.taken = c.taken := by rw [Channel.taken,ha]; rfl
  exact ⟨by rw [ha,hq]; exact h.legal,by rw [hc,hq]; exact h.count,by rw [hq]; exact h.le,by rw [hq,ht]; exact hl⟩

theorem nextIdx_toNat (n : Nat) : (nextIdx (Fin.ofNat maxEventCount n)).toNat = (n + 1) % maxEventCount := by
  have hlt : (n % maxEventCount + 1) % maxEventCount < maxEventCount := Nat.mod_lt _ (by decide)
  have hmax : maxEventCount < UInt32.size := by decide
  rw [nextIdx,UInt32.toNat_ofNat_of_lt' (by simp only [Fin.val_ofNat]; omega)]
  simp only [Fin.val_ofNat]
  rw [Nat.add_mod,Nat.mod_mod,← Nat.add_mod]

theorem add_one_toNat {count : UInt32} (h : count.toNat < maxEventCount) : (count + 1).toNat = count.toNat + 1 := by
  have hmax : maxEventCount < 2^32 := by decide
  rw [UInt32.toNat_add]
  exact Nat.mod_eq_of_lt (by simp; omega)

theorem sub_one_toNat {count : UInt32} (h : 0 < count.toNat) : (count - 1).toNat = count.toNat - 1 := by
  rw [UInt32.toNat_sub_of_le]
  · rfl
  · rw [UInt32.le_iff_toNat_le]
    exact h

/-- A step of push keeps the queue and what the kernel knows, and the program can rely on it. -/
theorem push_keeps (event : InputEvent) {p : Push} (h : c.IsQueue) (hp : Push.Assert c p) :
    (push event p c).2.IsQueue ∧ Push.Assert (push event p c).2 (push event p c).1 ∧ Rely .user c (push event p c).2 := by
  have hrefl : Rely .user c c := ⟨rfl,rfl,[],(List.append_nil _).symm⟩
  cases p with
  | idle => exact ⟨h,hp,hrefl⟩
  | loadCount e =>
    simp only [push]
    split_ifs with hfull
    · have hlen : c.queue.length = maxEventCount := by
        have := h.count
        have := h.le
        omega
      obtain ⟨hlegal,hq⟩ := Channel.answer_queue (a := .full e) h (by rw [Answer.apply,if_pos hlen])
      have htaken : (c.answer (.full e)).taken = c.taken := by simp [Channel.taken,Channel.answer,takes]
      have hpushed : (c.answer (.full e)).pushed = c.pushed := by simp [Channel.pushed,Channel.answer,pushes]
      refine ⟨⟨by rw [hlegal,hq],by rw [hq]; exact h.count,by rw [hq]; exact h.le,by rw [hq,htaken]; exact h.laid⟩,?_,?_⟩
      · simp only [Push.Assert,hpushed]
        exact hp
      · exact ⟨rfl,htaken,[],by rw [hq,List.append_nil]⟩
    · have hlt : c.queue.length < maxEventCount := by
        rw [← h.count]
        exact Nat.not_le.mp hfull
      exact ⟨h,⟨hp,hlt⟩,hrefl⟩
  | loadWriteIdx e =>
    obtain ⟨hidx,hlt⟩ := hp
    have hbound : c.buffer.writeIdx.toNat < maxEventCount := by
      rw [hidx]
      exact Nat.mod_lt _ (by decide)
    simp only [push,hbound,dite_true]
    exact ⟨h,⟨Fin.ext hidx,hlt,.zero⟩,hrefl⟩
  | storeEvent e idx k =>
    obtain ⟨hidx,hlt,hagree⟩ := hp
    have hstored := hagree.copyWord
    have hlaid : Ring.Laid (Function.update c.buffer.events idx (.copyWord k e (c.buffer.events idx))) c.taken c.queue := by
      rw [hidx,h.pushed_eq]
      exact h.laid.store hlt
    refine ⟨isQueue_of_same h rfl rfl hlaid,?_,⟨rfl,rfl,[],(List.append_nil _).symm⟩⟩
    simp only [push]
    split_ifs with hk
    · exact ⟨hidx,hlt,by simpa only [Function.update_self] using hstored⟩
    · exact ⟨hidx,hlt,by simpa only [Function.update_self] using hstored.eq (by omega)⟩
  | storeWriteIdx e idx =>
    obtain ⟨rfl,hlt,hevent⟩ := hp
    exact ⟨isQueue_of_same h rfl rfl h.laid,⟨nextIdx_toNat _,hlt,hevent⟩,⟨rfl,rfl,[],(List.append_nil _).symm⟩⟩
  | addCount e =>
    obtain ⟨hidx,hlt,hevent⟩ := hp
    obtain ⟨hlegal,hq⟩ := Channel.answer_queue (a := .pushed e) h (by rw [Answer.apply,if_pos hlt])
    have htaken : (c.answer (.pushed e)).taken = c.taken := by simp [Channel.taken,Channel.answer,takes]
    have hpushed : (c.answer (.pushed e)).pushed = c.pushed + 1 := by simp [Channel.pushed,Channel.answer,pushes]
    refine ⟨⟨?_,?_,?_,?_⟩,?_,rfl,htaken,[e],hq⟩
    · exact hlegal.trans (congrArg some hq.symm)
    · refine (add_one_toNat (by rw [h.count]; exact hlt)).trans ?_
      rw [h.count]
      exact (by rw [hq]; simp : c.queue.length + 1 = (c.answer (.pushed e)).queue.length)
    · exact (by rw [hq]; simp; omega : (c.answer (.pushed e)).queue.length ≤ maxEventCount)
    · have hlaid : Ring.Laid c.buffer.events (c.answer (.pushed e)).taken (c.answer (.pushed e)).queue := by
        rw [hq,htaken]
        exact h.laid.append (by rw [← h.pushed_eq]; exact hevent)
      exact hlaid
    · exact (by rw [hpushed]; exact hidx : c.buffer.writeIdx.toNat = (c.answer (.pushed e)).pushed % maxEventCount)
  | panicked => exact absurd hp id

/-- A step of try_read keeps the queue and what the program knows, and the kernel can rely on it. -/
theorem tryRead_keeps {p : TryRead} (h : c.IsQueue) (hp : TryRead.Assert c p) :
    (tryRead p c).2.IsQueue ∧ TryRead.Assert (tryRead p c).2 (tryRead p c).1 ∧ Rely .kernel c (tryRead p c).2 := by
  have hrefl : Rely .kernel c c := ⟨rfl,rfl,rfl,Nat.le_refl _⟩
  cases p with
  | idle => exact ⟨h,hp,hrefl⟩
  | loadCount =>
    simp only [tryRead]
    split_ifs with hzero
    · have hnil : c.queue = [] := by
        rw [← List.length_eq_zero_iff,← h.count,hzero]
        rfl
      obtain ⟨hlegal,hq⟩ := Channel.answer_queue (a := .empty) h (by rw [hnil,Answer.apply])
      have htaken : (c.answer .empty).taken = c.taken := by simp [Channel.taken,Channel.answer,takes]
      have hpushed : (c.answer .empty).pushed = c.pushed := by simp [Channel.pushed,Channel.answer,pushes]
      rw [← hnil] at hq
      refine ⟨⟨by rw [hlegal,hq,hnil],by rw [hq]; exact h.count,by rw [hq]; exact h.le,by rw [hq,htaken]; exact h.laid⟩,?_,?_⟩
      · simp only [TryRead.Assert,htaken]
        exact hp
      · exact ⟨rfl,rfl,hpushed,by rw [hq]⟩
    · have hne : c.queue ≠ [] := by
        intro hnil
        apply hzero
        rw [← UInt32.toNat_inj,h.count,hnil]
        rfl
      exact ⟨h,⟨hp,hne⟩,hrefl⟩
  | loadReadIdx =>
    obtain ⟨hidx,hne⟩ := hp
    have hbound : c.buffer.readIdx.toNat < maxEventCount := by
      rw [hidx]
      exact Nat.mod_lt _ (by decide)
    obtain ⟨e,q,hq⟩ := List.exists_cons_of_ne_nil hne
    simp only [tryRead,hbound,dite_true]
    exact ⟨h,⟨Fin.ext hidx,e,q,hq,.zero⟩,hrefl⟩
  | resetReadIdx => exact absurd hp id
  | loadEvent idx k event =>
    obtain ⟨hidx,e,q,hq,hagree⟩ := hp
    have hslot : c.buffer.events idx = e := by
      rw [hidx]
      exact (hq ▸ h.laid).head
    refine ⟨h,?_,hrefl⟩
    simp only [tryRead,hslot]
    split_ifs with hk
    · exact ⟨hidx,e,q,hq,hagree.copyWord⟩
    · rw [hagree.copyWord.eq (by omega)]
      exact ⟨hidx,q,hq⟩
  | storeReadIdx idx event =>
    obtain ⟨rfl,q,hq⟩ := hp
    exact ⟨isQueue_of_same h rfl rfl h.laid,⟨nextIdx_toNat _,q,hq⟩,rfl,rfl,rfl,Nat.le_refl _⟩
  | subCount event =>
    obtain ⟨hidx,q,hq⟩ := hp
    have hlen : c.queue.length = q.length + 1 := by rw [hq,List.length_cons]
    have hlaid := h.laid
    rw [hq] at hlaid
    obtain ⟨hlegal,hq'⟩ := Channel.answer_queue (a := .taken event) h (by rw [hq,Answer.apply,if_pos rfl])
    have htaken : (c.answer (.taken event)).taken = c.taken + 1 := by simp [Channel.taken,Channel.answer,takes]
    have hpushed : (c.answer (.taken event)).pushed = c.pushed := by simp [Channel.pushed,Channel.answer,pushes]
    refine ⟨⟨?_,?_,?_,?_⟩,?_,rfl,rfl,hpushed,?_⟩
    · exact hlegal.trans (congrArg some hq'.symm)
    · refine (sub_one_toNat (by rw [h.count,hlen]; exact Nat.zero_lt_succ _)).trans ?_
      rw [h.count,hlen]
      exact congrArg List.length hq'.symm
    · exact (by rw [hq']; have := h.le; omega : (c.answer (.taken event)).queue.length ≤ maxEventCount)
    · have htail : Ring.Laid c.buffer.events (c.answer (.taken event)).taken (c.answer (.taken event)).queue := by
        rw [hq',htaken]
        exact hlaid.tail
      exact htail
    · exact (by rw [htaken]; exact hidx : c.buffer.readIdx.toNat = (c.answer (.taken event)).taken % maxEventCount)
    · exact (by rw [hq']; omega : (c.answer (.taken event)).queue.length ≤ c.queue.length)

theorem start_holds : Team.Holds Channel.IsQueue Assert start := by
  refine ⟨⟨rfl,rfl,Nat.zero_le _,nofun⟩,fun a => ?_⟩
  cases a <;> rfl

private theorem step_holds {act : Party × InputEvent} {team team' : Team Caller Channel}
    (h : Team.Holds Channel.IsQueue Assert team) (ht : Team.step move act team = some team') :
    Team.Holds Channel.IsQueue Assert team' := by
  refine Team.step_holds (c := fun _ _ => True) assert_stable ?_ trivial h ht
  intro a event team p' c' _ h hm
  cases a with
  | kernel =>
    obtain ⟨hq,hself,hother⟩ := push_keeps event h.shared (h.agents .kernel)
    rw [Option.some.inj hm] at hq hself hother
    refine ⟨hq,hself,fun b hb => ?_⟩
    cases b with
    | kernel => exact absurd rfl hb
    | user => exact hother
  | user =>
    obtain ⟨hq,hself,hother⟩ := tryRead_keeps h.shared (h.agents .user)
    rw [Option.some.inj hm] at hq hself hother
    refine ⟨hq,hself,fun b hb => ?_⟩
    cases b with
    | kernel => exact hother
    | user => exact absurd rfl hb

theorem interleave_holds {acts : List (Party × InputEvent)} {team team' : Team Caller Channel}
    (h : Team.Holds Channel.IsQueue Assert team) (ht : interleave acts team = some team') :
    Team.Holds Channel.IsQueue Assert team' :=
  steps_keep (fun _ _ _ h ht => step_holds h ht) h ht

/-- The steps left of a call of try_read that finds an event. -/
def TryRead.rank : TryRead → Nat
  | .idle => 9
  | .loadCount => 8
  | .loadReadIdx => 7
  | .resetReadIdx => 7
  | .loadEvent _ k _ => 3 + (3 - k)
  | .storeReadIdx _ _ => 2
  | .subCount _ => 1

/-- While there are events, the program comes closer to having taken them all. -/
private theorem tryRead_advances {p : TryRead} (h : c.IsQueue) (hp : TryRead.Assert c p) (hne : c.queue ≠ []) :
    10 * (tryRead p c).2.queue.length + (tryRead p c).1.rank < 10 * c.queue.length + p.rank := by
  cases p with
  | idle => exact Nat.lt_succ_self _
  | loadCount =>
    have hcount : c.buffer.eventCount ≠ 0 := by
      intro hzero
      have hlen := h.count
      rw [hzero] at hlen
      exact hne (List.length_eq_zero_iff.mp hlen.symm)
    simp only [tryRead,hcount,if_false]
    exact Nat.lt_succ_self _
  | loadReadIdx =>
    have hbound : c.buffer.readIdx.toNat < maxEventCount := by
      rw [hp.1]
      exact Nat.mod_lt _ (by decide)
    simp only [tryRead,hbound,dite_true]
    exact Nat.lt_succ_self _
  | resetReadIdx => exact absurd hp id
  | loadEvent idx k event =>
    simp only [tryRead]
    split_ifs with hk <;> simp only [TryRead.rank,InputEvent.words] at * <;> omega
  | storeReadIdx idx event => exact Nat.lt_succ_self _
  | subCount event =>
    obtain ⟨_,q,hq⟩ := hp
    have hq' := (Channel.answer_queue (a := .taken event) h (by rw [hq,Answer.apply,if_pos rfl])).2
    have hlen : (tryRead (.subCount event) c).2.queue.length = q.length := congrArg List.length hq'
    rw [hlen,hq,List.length_cons]
    simp only [tryRead,TryRead.rank]
    omega

private theorem step_user (event : InputEvent) (team : Team Caller Channel) :
    Team.step move (.user,event) team =
      some ⟨Function.update team.agents .user (tryRead (team.agents .user) team.shared).1,
        (tryRead (team.agents .user) team.shared).2⟩ := rfl

/-- The program alone takes everything that was pushed. -/
theorem drains (event : InputEvent) {team : Team Caller Channel} (h : Team.Holds Channel.IsQueue Assert team) :
    ∃ n team', interleave (List.replicate n (.user,event)) team = some team' ∧
      takes team'.shared.answers = pushes team.shared.answers := by
  generalize hm : 10 * team.shared.queue.length + TryRead.rank (team.agents .user) = m
  induction m using Nat.strong_induction_on generalizing team with
  | _ m ih =>
    by_cases hne : team.shared.queue = []
    · have hq := Answer.pushes_eq h.shared.legal
      rw [hne] at hq
      exact ⟨0,team,rfl,by simpa using hq.symm⟩
    have hlt := tryRead_advances h.shared (h.agents .user) hne
    have hpushes : pushes (tryRead (team.agents .user) team.shared).2.answers = pushes team.shared.answers := by
      cases team.agents .user with
      | loadCount =>
        simp only [tryRead]
        split_ifs
        · simp [Channel.answer,pushes]
        · rfl
      | loadReadIdx =>
        simp only [tryRead]
        split_ifs <;> rfl
      | subCount event => simp [tryRead,Channel.answer,pushes]
      | resetReadIdx => simp [tryRead,Channel.answer,pushes]
      | _ => rfl
    have hholds := step_holds h (step_user event team)
    obtain ⟨n,team',hrun,htakes⟩ := ih _ (by rw [← hm]; exact hlt) hholds (by simp only [Function.update_self])
    refine ⟨n + 1,team',?_,htakes.trans hpushes⟩
    rw [List.replicate_succ,interleave,steps,step_user,Option.bind_some]
    exact hrun

/-- What the program has received of what the kernel has pushed. -/
structure Delivers (team : Team Caller Channel) : Prop where
  /-- What is not yet taken lies in its slots, in order. -/
  pending : ∃ q, pushes team.shared.answers = takes team.shared.answers ++ q ∧
    ∀ (i : Nat) (h : i < q.length),
      team.shared.buffer.events (Fin.ofNat maxEventCount ((takes team.shared.answers).length + i)) = q[i]
  full : ∀ before event after, team.shared.answers = before ++ .full event :: after →
    (pushes before).length = (takes before).length + maxEventCount
  empty : ∀ before after, team.shared.answers = before ++ .empty :: after → takes before = pushes before
  running : team.agents .kernel ≠ Push.panicked
  drains : ∀ event, ∃ n team', interleave (List.replicate n (.user,event)) team = some team' ∧
    takes team'.shared.answers = pushes team.shared.answers

/-- However the loads and stores of the two parties interleave, the ring is a queue. -/
theorem interleave_delivers {acts : List (Party × InputEvent)} {team : Team Caller Channel}
    (h : interleave acts start = some team) : Delivers team := by
  have hholds := interleave_holds start_holds h
  refine ⟨?_,?_,?_,?_,fun event => drains event hholds⟩
  · have hq := Answer.pushes_eq hholds.shared.legal
    rw [List.nil_append] at hq
    exact ⟨_,hq,hholds.shared.laid⟩
  · intro before event after ha
    exact Answer.length_of_full (ha ▸ hholds.shared.legal)
  · intro before after ha
    exact Answer.takes_of_empty (ha ▸ hholds.shared.legal)
  · intro hp
    have hk := hholds.agents .kernel
    simp only [Assert,hp] at hk
    exact hk

/-- The program starts to read after the first of two pushes. -/
theorem interleave_delivers_two : ∃ team : Team Caller Channel,
    interleave (List.replicate 11 (.kernel,.new .charEvent 97 0) ++ List.replicate 9 (.user,.new .none 0 0) ++
      List.replicate 7 (.kernel,.new .charEvent 98 0)) start = some team ∧
    team.shared.answers = [.pushed (.new .charEvent 97 0),.taken (.new .charEvent 97 0),.pushed (.new .charEvent 97 0)] ∧
    Delivers team := by
  have hrun : ((interleave (List.replicate 11 (.kernel,.new .charEvent 97 0) ++ List.replicate 9 (.user,.new .none 0 0) ++
      List.replicate 7 (.kernel,.new .charEvent 98 0)) start).map fun team => team.shared.answers) =
      some [.pushed (.new .charEvent 97 0),.taken (.new .charEvent 97 0),.pushed (.new .charEvent 97 0)] := by
    decide +kernel
  obtain ⟨team,h,ha⟩ := Option.map_eq_some_iff.mp hrun
  exact ⟨team,h,ha,interleave_delivers h⟩

end MofuOS.Events
