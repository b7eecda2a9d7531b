import ChainSaw.Memory
import Mathlib.Algebra.Order.Group.Multiset

set_option autoImplicit false

namespace ChainSaw

namespace Memory

theorem baseAddr_eq {addr : Nat} (fits : addr < 2 ^ 64) : baseAddr addr = addr / 64 * 64 := by
  have mask : (2 ^ 64 - 64 : Nat) = (2 ^ 58 - 1) <<< 6 := by decide
  have shifted : addr / 64 * 64 = addr >>> 6 <<< 6 := by
    rw [Nat.shiftRight_eq_div_pow, Nat.shiftLeft_eq]
  rw [baseAddr, mask, shifted]
  apply Nat.eq_of_testBit_eq
  intro i
  simp only [Nat.testBit_and, Nat.testBit_shiftLeft, Nat.testBit_shiftRight,
    Nat.testBit_two_pow_sub_one]
  by_cases low : 6 ≤ i
  · by_cases high : i < 64
    · have inside : i - 6 < 58 := by omega
      simp [low, inside, show 6 + (i - 6) = i by omega]
    · have past : addr.testBit i = false :=
        Nat.testBit_lt_two_pow (Nat.lt_of_lt_of_le fits (Nat.pow_le_pow_right (by omega) (by omega)))
      simp [low, past, show 6 + (i - 6) = i by omega]
  · simp [low]

/-- The match of `search_req` is the line of the request. -/
theorem inLine_iff {addr vaddr : Nat} (line : ∃ other < 2 ^ 63, baseAddr other = addr)
    (small : vaddr < 2 ^ 63) :
    (addr ≤ vaddr ∧ vaddr < (addr + lineSize) % 2 ^ 64) ↔ baseAddr vaddr = addr := by
  obtain ⟨other, fits, rfl⟩ := line
  rw [baseAddr_eq (by omega), baseAddr_eq (by omega), lineSize]
  omega

end Memory

/-- Ruby returns the address of every request that it is ready for exactly once, in
any order and after any delay: at each moment it holds the requests it has not
returned. -/
structure RubySystem.Lawful {σ : Type} (system : RubySystem σ) where
  pending : σ → Multiset Nat
  sendRequest : ∀ state addr isWrite, system.isReady state addr = true →
    pending (system.sendRequest state addr isWrite).1 +
      ((system.sendRequest state addr isWrite).2 : Multiset Nat) = addr ::ₘ pending state
  advanceTime : ∀ state,
    pending (system.advanceTime state).1 + ((system.advanceTime state).2 : Multiset Nat) =
      pending state

namespace Ruby

variable {σ : Type}

/-- The requests that have been sent and not yet popped from the queue. -/
def outstanding {system : RubySystem σ} (lawful : system.Lawful) (r : Ruby σ) : Multiset Nat :=
  lawful.pending r.state + (r.queue : Multiset Nat)

variable {system : RubySystem σ} (lawful : system.Lawful) {r : Ruby σ} (same : r.system = system)
include same

theorem outstanding_sendRequest {addr : Nat} (ready : r.isReady addr = true) (isWrite : Bool) :
    outstanding lawful (r.sendRequest addr isWrite) = addr ::ₘ outstanding lawful r := by
  subst same
  have law := lawful.sendRequest r.state addr isWrite ready
  simp only [outstanding, sendRequest, ← Multiset.coe_add]
  rw [add_comm (r.queue : Multiset Nat), ← add_assoc, law, Multiset.cons_add]

theorem outstanding_advanceTime :
    outstanding lawful r.advanceTime = outstanding lawful r := by
  subst same
  have law := lawful.advanceTime r.state
  simp only [outstanding, advanceTime, ← Multiset.coe_add]
  rw [add_comm (r.queue : Multiset Nat), ← add_assoc, law]

end Ruby

def MemRequest.line (req : MemRequest) : Nat := Memory.baseAddr req.vaddr

namespace Memory

/-- The issued requests of the buffer. -/
def issued (m : Memory) : List MemRequest := m.ldstAddrBuffer.filter (·.isIssue)

/-- The state of the buffer when the lines in `outstanding` have been sent to
Ruby and not been answered. -/
structure Consistent (m : Memory) (outstanding : Multiset Nat) : Prop where
  free : m.memReqStack + m.issued.length = memMshrSize
  nonneg : 0 ≤ m.memReqStack
  ordered : m.ldstAddrBuffer.Pairwise fun a b => a.line = b.line → b.isIssue = true → a.isIssue = true
  distinct : (m.ldstAddrBuffer.map MemRequest.key).Nodup
  small : ∀ req ∈ m.ldstAddrBuffer, req.vaddr < 2 ^ 63
  lines : (m.issued.map MemRequest.line : Multiset Nat) = outstanding

theorem consistent_new (memaddrMap : Nat → Nat → Option MemValue) :
    (new memaddrMap).Consistent 0 where
  free := rfl
  nonneg := by simp [new, memMshrSize]
  ordered := List.Pairwise.nil
  distinct := List.nodup_nil
  small := by simp [new]
  lines := rfl

theorem sendReq_ok {m m' : Memory} {iter nodeid : Nat} (returned : m.sendReq iter nodeid = .ok m') :
    ∃ value, m.memaddrMap iter nodeid = some value ∧ m' = { m with
      ldstAddrBuffer := m.ldstAddrBuffer ++ [⟨value.isWrite, nodeid, value.addr, false⟩] } := by
  unfold sendReq at returned
  split at returned
  · rename_i value found
    cases returned
    exact ⟨value, found, rfl⟩
  · cases returned

theorem Consistent.sendReq {m m' : Memory} {outstanding : Multiset Nat} {iter nodeid : Nat}
    (valid : m.Consistent outstanding) (returned : m.sendReq iter nodeid = .ok m')
    (distinct : (m'.ldstAddrBuffer.map MemRequest.key).Nodup)
    (small : ∀ req ∈ m'.ldstAddrBuffer, req.vaddr < 2 ^ 63) : m'.Consistent outstanding := by
  obtain ⟨value, _, rfl⟩ := sendReq_ok returned
  have same : ({ m with ldstAddrBuffer := m.ldstAddrBuffer ++
      [⟨value.isWrite, nodeid, value.addr, false⟩] } : Memory).issued = m.issued := by
    simp [issued]
  refine ⟨?_, valid.nonneg, ?_, distinct, small, ?_⟩
  · rw [same]
    exact valid.free
  · refine List.pairwise_append.mpr ⟨valid.ordered, List.pairwise_singleton _ _, ?_⟩
    intro a _ b last _ issued
    rw [List.mem_singleton.mp last] at issued
    cases issued
  · rw [same]
    exact valid.lines

theorem issueFirst_some {σ : Type} {r : Ruby σ} {buffer buffer' : List MemRequest}
    {req : MemRequest} (found : issueFirst r buffer = some (req, buffer')) :
    ∃ before after, buffer = before ++ req :: after ∧
      buffer' = before ++ { req with isIssue := true } :: after ∧ req.isIssue = false ∧
      r.isReady req.line = true ∧
      ∀ other ∈ before, r.isReady other.line = true → other.isIssue = true := by
  induction buffer generalizing buffer' with
  | nil => cases found
  | cons head rest ih =>
    unfold issueFirst at found
    split at found
    · rename_i ready
      cases found
      exact ⟨[], rest, rfl, rfl, ready.2, ready.1, by simp⟩
    · rename_i skipped
      obtain ⟨⟨req', rest'⟩, tail, same⟩ := Option.map_eq_some_iff.mp found
      cases same
      obtain ⟨before, after, rfl, rfl, fresh, ready, earlier⟩ := ih tail
      refine ⟨head :: before, after, rfl, rfl, fresh, ready, ?_⟩
      intro other member ready
      rcases List.mem_cons.mp member with rfl | member
      · by_contra notIssued
        exact skipped ⟨ready, by simpa using notIssued⟩
      · exact earlier other member ready

/-- Issuing the first ready request of the buffer keeps the issued requests of
each line in front: all requests of a line are ready together. -/
theorem Consistent.issue {σ : Type} {r : Ruby σ} {m : Memory} {outstanding : Multiset Nat}
    (valid : m.Consistent outstanding) (room : m.memReqStack ≠ 0) {req : MemRequest}
    {buffer : List MemRequest} (found : issueFirst r m.ldstAddrBuffer = some (req, buffer)) :
    ({ m with ldstAddrBuffer := buffer, memReqStack := m.memReqStack - 1 } : Memory).Consistent
      (req.line ::ₘ outstanding) := by
  obtain ⟨before, after, whole, rfl, fresh, ready, earlier⟩ := issueFirst_some found
  have ⟨free, nonneg, ordered, distinct, small, lines⟩ := valid
  have oldIssued : m.issued = before.filter (·.isIssue) ++ after.filter (·.isIssue) := by
    simp [issued, whole, fresh]
  have newIssued : (before ++ { req with isIssue := true } :: after).filter (·.isIssue) =
      before.filter (·.isIssue) ++ { req with isIssue := true } :: after.filter (·.isIssue) := by
    simp
  rw [whole] at ordered distinct small
  refine ⟨?_, by simp only; omega, ?_, ?_, ?_, ?_⟩
  · rw [oldIssued, List.length_append] at free
    simp only [issued, newIssued, List.length_append, List.length_cons]
    omega
  · obtain ⟨orderedBefore, orderedRest, across⟩ := List.pairwise_append.mp ordered
    obtain ⟨_, orderedAfter⟩ := List.pairwise_cons.mp orderedRest
    refine List.pairwise_append.mpr ⟨orderedBefore, List.pairwise_cons.mpr ⟨?_, orderedAfter⟩, ?_⟩
    · exact fun _ _ _ _ => rfl
    · intro a inA b inB same issuedB
      rcases List.mem_cons.mp inB with rfl | inB
      · exact earlier a inA (by rw [same]; exact ready)
      · exact across a inA b (by simp [inB]) same issuedB
  · simpa [MemRequest.key] using distinct
  · intro other member
    rcases List.mem_append.mp member with inBefore | inRest
    · exact small other (by simp [inBefore])
    · rcases List.mem_cons.mp inRest with rfl | inAfter
      · exact small req (by simp)
      · exact small other (by simp [inAfter])
  · rw [← lines, oldIssued]
    simp only [issued, newIssued, List.map_append, List.map_cons, ← Multiset.coe_add,
      ← Multiset.cons_coe, Multiset.add_cons]
    rfl

theorem Consistent.access {σ : Type} {system : RubySystem σ} (lawful : system.Lawful)
    {r : Ruby σ} (same : r.system = system) {m : Memory}
    (valid : m.Consistent (r.outstanding lawful)) :
    (m.access r).1.Consistent ((m.access r).2.outstanding lawful) := by
  unfold Memory.access
  split
  · rename_i room
    split
    · rename_i req buffer found
      obtain ⟨_, _, _, _, _, ready, _⟩ := issueFirst_some found
      have ready : r.isReady (baseAddr req.vaddr) = true := ready
      rw [Ruby.outstanding_sendRequest lawful same ready]
      exact valid.issue room found
    · exact valid
  · exact valid

/-- `search_req` for an outstanding line finds the first request of that line,
and this one has been issued. -/
theorem Consistent.searchReq {m : Memory} {addr : Nat} {rest : Multiset Nat}
    (valid : m.Consistent (addr ::ₘ rest)) :
    ∃ before req after, m.ldstAddrBuffer = before ++ req :: after ∧ req.isIssue = true ∧
      req.line = addr ∧ m.searchReq addr lineSize = some req := by
  have member : addr ∈ m.issued.map MemRequest.line := by
    have : addr ∈ (m.issued.map MemRequest.line : Multiset Nat) := by
      rw [valid.lines]
      exact Multiset.mem_cons_self addr rest
    exact this
  obtain ⟨holder, isIssued, line⟩ := List.mem_map.mp member
  obtain ⟨inside, holderIssued⟩ := List.mem_filter.mp isIssued
  have isLine : ∃ other < 2 ^ 63, baseAddr other = addr :=
    ⟨holder.vaddr, valid.small holder inside, line⟩
  have test : ∀ other ∈ m.ldstAddrBuffer,
      (decide (addr ≤ other.vaddr) && decide (other.vaddr < (addr + lineSize) % 2 ^ 64)) = true ↔
        other.line = addr := by
    intro other member
    rw [Bool.and_eq_true, decide_eq_true_eq, decide_eq_true_eq]
    exact inLine_iff isLine (valid.small other member)
  cases found : m.searchReq addr lineSize with
  | none =>
    exact absurd ((test holder inside).mpr line) (List.find?_eq_none.mp found holder inside)
  | some req =>
    obtain ⟨matched, before, after, whole, skipped⟩ := List.find?_eq_some_iff_append.mp found
    have reqLine : req.line = addr := (test req (by simp [whole])).mp matched
    refine ⟨before, req, after, whole, ?_, reqLine, rfl⟩
    have ordered := valid.ordered
    rw [whole] at inside ordered
    rcases List.mem_append.mp inside with inBefore | inRest
    · have := skipped holder inBefore
      rw [(test holder (by simp [whole, inBefore])).mpr line] at this
      cases this
    · rcases List.mem_cons.mp inRest with rfl | inAfter
      · exact holderIssued
      · have afterReq := List.rel_of_pairwise_cons (List.pairwise_append.mp ordered).2.1 inAfter
        exact afterReq (reqLine.trans line.symm) holderIssued

/-- Distinct requests make `list::remove` erase the request it is given only. -/
theorem filter_key {before after : List MemRequest} {req : MemRequest}
    (distinct : ((before ++ req :: after).map MemRequest.key).Nodup) :
    (before ++ req :: after).filter (fun other => other.key != req.key) = before ++ after := by
  rw [List.map_append, List.map_cons, List.nodup_middle, List.nodup_cons] at distinct
  have apart : ∀ other ∈ before ++ after, (other.key != req.key) = true := by
    intro other member
    rw [bne_iff_ne]
    intro same
    apply distinct.1
    rw [← List.map_append, ← same]
    exact List.mem_map_of_mem member
  rw [List.filter_append, List.filter_cons_of_neg (by simp), ← List.filter_append,
    List.filter_eq_self.mpr apart]

/-- One response: it takes one issued request of its line out of the buffer. -/
theorem Consistent.processResponse {m : Memory} {addr : Nat} {rest : Multiset Nat}
    (valid : m.Consistent (addr ::ₘ rest)) :
    ∃ before req after, m.ldstAddrBuffer = before ++ req :: after ∧ req.isIssue = true ∧
      req.line = addr ∧
      m.processResponse addr =
        .ok ({ m with ldstAddrBuffer := before ++ after, memReqStack := m.memReqStack + 1 },
          req.nodeid) ∧
      ({ m with ldstAddrBuffer := before ++ after, memReqStack := m.memReqStack + 1 }
        : Memory).Consistent rest := by
  obtain ⟨before, req, after, whole, reqIssued, line, found⟩ := valid.searchReq
  have ⟨free, nonneg, ordered, distinct, small, lines⟩ := valid
  rw [whole] at ordered distinct small
  refine ⟨before, req, after, whole, reqIssued, line, ?_, ?_⟩
  · unfold Memory.processResponse
    rw [found, whole]
    simp only [filter_key distinct]
  · have oldIssued : m.issued = before.filter (·.isIssue) ++ req :: after.filter (·.isIssue) := by
      simp [issued, whole, reqIssued]
    have newIssued : (before ++ after).filter (·.isIssue) =
        before.filter (·.isIssue) ++ after.filter (·.isIssue) := List.filter_append ..
    have shorter : (before ++ after).Sublist (before ++ req :: after) :=
      List.Sublist.append_left (List.sublist_cons_self req after) before
    rw [oldIssued] at free lines
    refine ⟨?_, by simp only; omega, ordered.sublist shorter, distinct.sublist (shorter.map _),
      fun other member => small other (shorter.subset member), ?_⟩
    · simp only [List.length_append, List.length_cons] at free
      simp only [issued, newIssued, List.length_append]
      omega
    · simp only [List.map_append, List.map_cons, ← Multiset.coe_add, ← Multiset.cons_coe,
        Multiset.add_cons, line] at lines
      simp only [issued, newIssued, List.map_append, ← Multiset.coe_add]
      exact (Multiset.cons_inj_right addr).mp lines

/-- The responses `queue` answer the requests `answered` one by one: each one
takes a single issued request of its own line out of the buffer. -/
inductive Answers : List MemRequest → List Nat → List MemRequest → List MemRequest → Prop
  | nil (buffer : List MemRequest) : Answers buffer [] [] buffer
  | cons {before after answered buffer : List MemRequest} {queue : List Nat} (req : MemRequest) :
      req.isIssue = true → Answers (before ++ after) queue answered buffer →
      Answers (before ++ req :: after) (req.line :: queue) (req :: answered) buffer

theorem Answers.perm {buffer buffer' answered : List MemRequest} {queue : List Nat}
    (answers : Answers buffer queue answered buffer') : buffer.Perm (answered ++ buffer') := by
  induction answers with
  | nil => exact List.Perm.refl _
  | cons req _ _ ih => exact List.perm_middle.trans (ih.cons req)

theorem Consistent.processMshr (queue : List Nat) :
    ∀ {m : Memory} {rest : Multiset Nat}, m.Consistent (rest + (queue : Multiset Nat)) →
      ∃ m' answered, m.processMshr queue = .ok (m', answered.map (·.nodeid)) ∧
        Answers m.ldstAddrBuffer queue answered m'.ldstAddrBuffer ∧ m'.Consistent rest ∧
        m'.memaddrMap = m.memaddrMap := by
  induction queue with
  | nil =>
    intro m rest valid
    exact ⟨m, [], rfl, .nil _, by simpa using valid, rfl⟩
  | cons addr queue ih =>
    intro m rest valid
    rw [← Multiset.cons_coe, Multiset.add_cons] at valid
    obtain ⟨before, req, after, whole, reqIssued, rfl, answeredOne, next⟩ := valid.processResponse
    obtain ⟨m', answered, returned, answers, final, sameMap⟩ := ih next
    refine ⟨m', req :: answered, ?_, ?_, final, sameMap⟩
    · unfold Memory.processMshr
      rw [answeredOne, Loops.ok_bind]
      dsimp only
      rw [returned]
      rfl
    · rw [whole]
      exact .cons req reqIssued answers

@[simp] theorem access_system {σ : Type} (m : Memory) (r : Ruby σ) :
    (m.access r).2.system = r.system := by
  unfold Memory.access
  split
  · split <;> rfl
  · rfl

/-- `recv_resp` never fails: after issuing at most one request it answers every
response in the queue. -/
theorem Consistent.recvResp {σ : Type} {system : RubySystem σ} (lawful : system.Lawful)
    {r : Ruby σ} (same : r.system = system) {m : Memory} (valid : m.Consistent (r.outstanding lawful)) :
    ∃ m' answered, m.recvResp r =
        .ok (m', { (m.access r).2 with queue := [] }, answered.map (·.nodeid)) ∧
      Answers (m.access r).1.ldstAddrBuffer (m.access r).2.queue answered m'.ldstAddrBuffer ∧
      m'.Consistent (lawful.pending (m.access r).2.state) ∧ m'.memaddrMap = m.memaddrMap := by
  have issued := valid.access lawful same
  obtain ⟨m', answered, returned, answers, final, sameMap⟩ :=
    Consistent.processMshr (m.access r).2.queue issued
  refine ⟨m', answered, ?_, answers, final, ?_⟩
  · unfold Memory.recvResp
    simp only [returned]
    rfl
  · rw [sameMap]
    unfold Memory.access
    split
    · split <;> rfl
    · rfl

end Memory

/-- The states that calls of `send_req` and `recv_resp` and the passing of time
lead to, with the nodes sent and the nodes answered so far. The live requests
are distinct and their addresses lie below `2 ^ 63`. -/
inductive MshrRun {σ : Type} {system : RubySystem σ} (lawful : system.Lawful) :
    Memory → Ruby σ → List Nat → List Nat → Prop
  | start (memaddrMap : Nat → Nat → Option MemValue) (state : σ) (idle : lawful.pending state = 0) :
      MshrRun lawful (Memory.new memaddrMap) ⟨system, state, []⟩ [] []
  | send {m m' : Memory} {r : Ruby σ} {sent answered : List Nat} (iter nodeid : Nat) :
      MshrRun lawful m r sent answered → m.sendReq iter nodeid = .ok m' →
      (m'.ldstAddrBuffer.map MemRequest.key).Nodup →
      (∀ req ∈ m'.ldstAddrBuffer, req.vaddr < 2 ^ 63) →
      MshrRun lawful m' r (sent ++ [nodeid]) answered
  | advance {m : Memory} {r : Ruby σ} {sent answered : List Nat} :
      MshrRun lawful m r sent answered → MshrRun lawful m r.advanceTime sent answered
  | receive {m m' : Memory} {r r' : Ruby σ} {sent answered : List Nat} (nodes : List Nat) :
      MshrRun lawful m r sent answered → m.recvResp r = .ok (m', r', nodes) →
      MshrRun lawful m' r' sent (answered ++ nodes)

namespace MshrRun

variable {σ : Type} {system : RubySystem σ} {lawful : system.Lawful}

/-- What every run keeps: the buffer fits what Ruby still owes, and each node
sent is either answered or in the buffer. -/
structure Kept (lawful : system.Lawful) (m : Memory) (r : Ruby σ) (sent answered : List Nat) :
    Prop where
  same : r.system = system
  consistent : m.Consistent (r.outstanding lawful)
  conserved : sent.Perm (answered ++ m.ldstAddrBuffer.map (·.nodeid))

theorem access_nodeids (m : Memory) (r : Ruby σ) :
    (m.access r).1.ldstAddrBuffer.map (·.nodeid) = m.ldstAddrBuffer.map (·.nodeid) := by
  unfold Memory.access
  split
  · split
    · rename_i found
      obtain ⟨before, after, whole, rfl, _⟩ := Memory.issueFirst_some found
      simp [whole]
    · rfl
  · rfl

theorem kept {m : Memory} {r : Ruby σ} {sent answered : List Nat}
    (run : MshrRun lawful m r sent answered) : Kept lawful m r sent answered := by
  induction run with
  | start memaddrMap state idle =>
    refine ⟨rfl, ?_, List.Perm.refl _⟩
    simpa [Ruby.outstanding, idle] using Memory.consistent_new memaddrMap
  | @send m m' r sent answered iter nodeid _ returned distinct small ih =>
    refine ⟨ih.same, ih.consistent.sendReq returned distinct small, ?_⟩
    obtain ⟨value, _, rfl⟩ := Memory.sendReq_ok returned
    simpa using ih.conserved.append_right [nodeid]
  | advance _ ih =>
    refine ⟨ih.same, ?_, ih.conserved⟩
    rw [Ruby.outstanding_advanceTime lawful ih.same]
    exact ih.consistent
  | @receive m m' r r' sent answered nodes _ returned ih =>
    obtain ⟨final, entries, again, answers, valid, _⟩ := ih.consistent.recvResp lawful ih.same
    rw [returned] at again
    cases again
    refine ⟨by simp [ih.same], by simpa [Ruby.outstanding] using valid, ?_⟩
    have moved := answers.perm.map (·.nodeid)
    rw [access_nodeids, List.map_append] at moved
    simpa using ih.conserved.trans (moved.append_left answered)

end MshrRun

/-- In every run: free and issued entries add up to the size of the MSHR, within
each cache line the issued requests come first, the next `recv_resp` returns,
each response taking out one issued request of its line, and every node sent
is answered once or still in the buffer. -/
theorem mshr_buffer_invariant {σ : Type} {system : RubySystem σ} (lawful : system.Lawful)
    {m : Memory} {r : Ruby σ} {sent answered : List Nat}
    (run : MshrRun lawful m r sent answered) :
    (m.memReqStack + m.issued.length = memMshrSize ∧ 0 ≤ m.memReqStack) ∧
      ((m.access r).1.memReqStack + (m.access r).1.issued.length = memMshrSize ∧
        0 ≤ (m.access r).1.memReqStack) ∧
      (m.ldstAddrBuffer.Pairwise fun a b =>
        a.line = b.line → b.isIssue = true → a.isIssue = true) ∧
      (∃ m' r' entries, m.recvResp r = .ok (m', r', entries.map (·.nodeid)) ∧
        Memory.Answers (m.access r).1.ldstAddrBuffer (m.access r).2.queue entries
          m'.ldstAddrBuffer) ∧
      sent.Perm (answered ++ m.ldstAddrBuffer.map (·.nodeid)) := by
  obtain ⟨same, valid, conserved⟩ := run.kept
  have issued := valid.access lawful same
  obtain ⟨m', entries, returned, answers, _⟩ := valid.recvResp lawful same
  exact ⟨⟨valid.free, valid.nonneg⟩, ⟨issued.free, issued.nonneg⟩, valid.ordered,
    ⟨m', _, entries, returned, answers⟩, conserved⟩

/-- A memory that answers its requests in order, one in each cycle. -/
def fifoRuby : RubySystem (List Nat) where
  isReady := fun held addr => !held.contains addr
  sendRequest := fun held addr _ => (held ++ [addr], [])
  advanceTime
    | [] => ([], [])
    | addr :: held => (held, [addr])

def fifoRuby_lawful : fifoRuby.Lawful where
  pending := fun held => held
  sendRequest := by
    intro held addr isWrite _
    simp [fifoRuby]
  advanceTime := by
    intro held
    cases held with
    | nil => rfl
    | cons addr held => exact Multiset.coe_eq_coe.mpr (List.perm_append_singleton addr held)

/-- Two requests to one line: the second waits until the first is answered. -/
theorem mshr_sameLine :
    ∃ m r, MshrRun fifoRuby_lawful m r [1, 2] [1] ∧
      (m.memReqStack + m.issued.length = memMshrSize ∧ 0 ≤ m.memReqStack) ∧
      ((m.access r).1.memReqStack + (m.access r).1.issued.length = memMshrSize ∧
        0 ≤ (m.access r).1.memReqStack) ∧
      (m.ldstAddrBuffer.Pairwise fun a b =>
        a.line = b.line → b.isIssue = true → a.isIssue = true) ∧
      (∃ m' r' entries, m.recvResp r = .ok (m', r', entries.map (·.nodeid)) ∧
        Memory.Answers (m.access r).1.ldstAddrBuffer (m.access r).2.queue entries
          m'.ldstAddrBuffer) ∧
      [1, 2].Perm ([1] ++ m.ldstAddrBuffer.map (·.nodeid)) := by
  have run : MshrRun fifoRuby_lawful
      ⟨fun _ nodeid => some ⟨false, 64 + nodeid⟩, [⟨false, 2, 66, true⟩], 9⟩
      ⟨fifoRuby, [64], []⟩ [1, 2] [1] := by
    have started : MshrRun fifoRuby_lawful
        (Memory.new fun _ nodeid => some ⟨false, 64 + nodeid⟩) ⟨fifoRuby, [], []⟩ [] [] :=
      .start _ [] rfl
    have first := started.send 0 1 rfl (by decide) (by decide)
    have second := first.send 0 2 rfl (by decide) (by decide)
    have issued := second.receive [] rfl
    exact issued.advance.receive [1] rfl
  exact ⟨_, _, run, mshr_buffer_invariant fifoRuby_lawful run⟩

end ChainSaw
