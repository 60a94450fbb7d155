import LibMp.ReadyCalls

/- The waits of the ready protocol by their code: the wait on the CPU, the test
   and the operation that the call on a stream enqueues pass together as long as
   the two counts they compare have gone round 2^32 equally often. -/
namespace LibMp
variable {job : CommJob} {kernel : Nat → Nat → Bool} {n n' : Net}

/-! ## The wait on the CPU, the test and the wait on a stream

The three look at the same two words. The CPU compares them as unsigned
numbers, the stream on the circle. -/

section
variable {cc : CommConfig} {rank : Nat} {c : Comm}

/-- The wait on the CPU passes, with nothing more to arrive. -/
def CpuPasses (cc : CommConfig) (rank : Nat) (c : Comm) : Prop :=
  (commWaitReady cc rank { c with arrivals := [] }).1 = .ok 0

/-- The test succeeds. -/
def TestPasses (cc : CommConfig) (rank : Nat) (c : Comm) : Prop :=
  (commTestReady cc rank { c with arrivals := [] }).1 = .ok (0, true)

/-- A stream passes an operation on memory `mem`: GEQ compares on the circle. -/
def StreamOp.passes (mem : Word → Nat) : StreamOp → Bool
  | .wait word value .geq => streamGeq (mem word) value
  | .wait word value cond => cond.holds (mem word) value
  | _ => true

/-- The memory of a rank, as its streams see it. -/
def Comm.word (cc : CommConfig) (c : Comm) : Word → Nat
  | .user addr => c.ready.readyTable ((addr - cc.readyTable) / 4)
  | word => c.sys.w.word word

/-- The stream passes the operation that `comm_wait_ready_on_stream` enqueues. -/
def StreamPasses (cc : CommConfig) (rank : Nat) (st : Stream) (c : Comm) : Prop :=
  ∃ op c', commWaitReadyOnStream cc rank st (c.given [] []) = (.ok 0, c') ∧
    c'.sys.w = c.sys.w.enqueue st [op] ∧ op.passes (c.word cc) = true

theorem cpuPasses_iff (hrank : rank < cc.commSize) : CpuPasses cc rank c ↔ c.ready.notReady rank = false := by
  unfold CpuPasses commWaitReady
  rw [Prog.bind_ok (commMpiRankToPeer_run hrank _), Prog.bind_ok (Prog.get_run _)]
  cases hr : c.ready.notReady rank <;>
    simp [waitReadyLoop, look, hr, Prog.bind_run, Prog.pure_run, setReady]

theorem testPasses_iff (hrank : rank < cc.commSize) : TestPasses cc rank c ↔ c.ready.notReady rank = false := by
  unfold TestPasses commTestReady
  rw [Prog.bind_ok (commMpiRankToPeer_run hrank _)]
  cases hr : c.ready.notReady rank <;> simp [look, hr, Prog.bind_run, Prog.pure_run, setReady]

theorem streamPasses_iff {st : Stream} (hrank : rank < cc.commSize) :
    StreamPasses cc rank st c ↔ streamGeq (c.ready.readyTable rank) (c.ready.readyValues rank) = true := by
  have hslot : c.word cc (.user (cc.readyTable + 4 * rank)) = c.ready.readyTable rank := by
    show c.ready.readyTable ((cc.readyTable + 4 * rank - cc.readyTable) / 4) = _
    rw [show (cc.readyTable + 4 * rank - cc.readyTable) / 4 = rank by omega]
  rw [← hslot]
  constructor
  · rintro ⟨op, c', hrun, henq, hpass⟩
    obtain ⟨-, -, hw⟩ := commWaitReadyOnStream_ready hrun
    have htodo := congrArg (fun w : World => (w.streams st).todo) (henq.symm.trans hw)
    simp only [World.enqueue_streams, if_true] at htodo
    obtain rfl := List.singleton_injective (List.append_cancel_left htodo)
    exact hpass
  · intro hpass
    obtain ⟨tape, -, hrun⟩ := @commWaitReadyOnStream_runs cc (c.given [] []) rank hrank st nofun
    exact ⟨_, _, hrun, rfl, hpass⟩

/-- The three pass on the same words: when the count `T` of the word in the table
has reached the expected count `E`. -/
structure PassTogether (cc : CommConfig) (rank : Nat) (st : Stream) (c : Comm) (T E : Nat) : Prop where
  cpu : CpuPasses cc rank c ↔ E ≤ T
  test : TestPasses cc rank c ↔ E ≤ T
  stream : StreamPasses cc rank st c ↔ E ≤ T

end

/-- For the words of `s` at `r` in every run, of any length: they are the number
`T` of the put that was last written and the number `E` of the next wait modulo
2^32, and where these are less than 2^31 apart, the stream always passes at the
right counts, and the CPU passes together with it exactly if `T` and `E` have
gone round 2^32 equally often. -/
theorem ready_waits_agree (h : NetMoves job kernel Net.init n) {r s : Nat} (hs : s < job.size) (st : Stream)
    {c : Comm} (hc : c.ready = n.tables r) (hnear : Near (2 ^ 32) (arrivedNo n.log r s) (1 + tookCount n.log r s)) :
    (n.tables r).readyTable s = arrivedNo n.log r s % 2 ^ 32 ∧
    (n.tables r).readyValues s = (1 + tookCount n.log r s) % 2 ^ 32 ∧
    (StreamPasses (job.comm r) s st c ↔ 1 + tookCount n.log r s ≤ arrivedNo n.log r s) ∧
    (PassTogether (job.comm r) s st c (arrivedNo n.log r s) (1 + tookCount n.log r s) ↔
      arrivedNo n.log r s / 2 ^ 32 = (1 + tookCount n.log r s) / 2 ^ 32) := by
  have hinv := readyInv_moves h readyInv_init
  have htable := (hinv.table r s).2
  have hvalue := hinv.took r s
  have hstream : StreamPasses (job.comm r) s st c ↔ 1 + tookCount n.log r s ≤ arrivedNo n.log r s := by
    rw [@streamPasses_iff (job.comm r) s c st hs]
    unfold streamGeq
    rw [hc, htable, hvalue, serialGe_residues hnear]
    exact decide_eq_true_iff
  have hready : c.ready.notReady s = false ↔
      ¬ arrivedNo n.log r s % 2 ^ 32 < (1 + tookCount n.log r s) % 2 ^ 32 := by
    unfold ReadyTables.notReady
    rw [hc, htable, hvalue]
    exact decide_eq_false_iff_not
  refine ⟨htable, hvalue, hstream, ?_⟩
  rw [← lt_residues_iff hnear]
  constructor
  · intro hp
    have := (@cpuPasses_iff (job.comm r) s c hs).symm.trans hp.cpu
    rw [hready] at this
    omega
  · intro hlt
    have hle : c.ready.notReady s = false ↔ 1 + tookCount n.log r s ≤ arrivedNo n.log r s := by
      rw [hready, hlt]
      omega
    exact ⟨(cpuPasses_iff hs).trans hle, (testPasses_iff hs).trans hle, hstream⟩

/-! ## Runs of any length -/

/-- Rank 0 has told rank 1 `T` times and everything has arrived; rank 1 has
waited `E` times. -/
structure Settled (n : Net) (T E : Nat) : Prop where
  moves : NetMoves twoRanks streamGeq Net.init n
  sent : sentCount n.log 0 1 = T
  arrived : arrivedNo n.log 1 0 = T
  took : tookCount n.log 1 0 = E
  flying : n.flying = []

/-- Rank 0 tells once more. -/
theorem Settled.tell {T E : Nat} (h : Settled n T E) : ∃ n', Settled n' (T + 1) E := by
  obtain ⟨p, hput⟩ : ∃ p, twoRanks.put (n.tables 0) 0 1 (sentCount n.log 0 1 + 1) = some p := ⟨_, rfl⟩
  obtain ⟨-, -, hp⟩ := put_eq (show 0 < twoRanks.size by decide) hput
  have hsend : n.step twoRanks streamGeq (.sendReady 0 1) = some (n.issue 0 1 p) := by
    show n.sendReady twoRanks 0 1 = _
    unfold Net.sendReady
    rw [if_pos ⟨by decide, by decide, rfl⟩, hput]
    rfl
  have hfly : (n.issue 0 1 p).flying = [p] := by
    show n.flying ++ [p] = [p]
    rw [h.flying]
    rfl
  have hdel : (n.issue 0 1 p).step twoRanks streamGeq (.deliver 0) = some ((n.issue 0 1 p).deliver twoRanks 0 p) := by
    show ((n.issue 0 1 p).flying[0]?).map _ = _
    rw [hfly]
    rfl
  have hlog : ((n.issue 0 1 p).deliver twoRanks 0 p).log = n.log ++ [.sent 0 1] ++ [.delivered 0 1 (T + 1)] := by
    rw [← h.sent, hp]
    rfl
  refine ⟨(n.issue 0 1 p).deliver twoRanks 0 p, ⟨(h.moves.tail ⟨_, hsend⟩).tail ⟨_, hdel⟩, ?_, ?_, ?_, ?_⟩⟩
  · rw [hlog, sentCount_append, sentCount_append, sentCount_sent, h.sent]
    rfl
  · rw [hlog, arrivedNo_append]
    rfl
  · rw [hlog, tookCount_append, tookCount_append, tookCount_sent, h.took]
    rfl
  · show (n.issue 0 1 p).flying.eraseIdx 0 = []
    rw [hfly]
    rfl

/-- A rank of a net, which has made no other calls. -/
def Net.rank (n : Net) (r : Nat) : Comm := { Comm.init with ready := n.tables r }

/-- Rank 0 has told rank 1, and all three pass. -/
theorem ready_waits_agree_of_told : ∃ n, NetMoves twoRanks streamGeq Net.init n ∧
    arrivedNo n.log 1 0 = 1 ∧ tookCount n.log 1 0 = 0 ∧ CpuPasses (twoRanks.comm 1) 0 (n.rank 1) ∧
    TestPasses (twoRanks.comm 1) 0 (n.rank 1) ∧ StreamPasses (twoRanks.comm 1) 0 3 (n.rank 1) := by
  obtain ⟨n, h⟩ := (⟨.refl, rfl, rfl, rfl, rfl⟩ : Settled Net.init 0 0).tell
  have hnear : Near (2 ^ 32) (arrivedNo n.log 1 0) (1 + tookCount n.log 1 0) := by
    rw [h.arrived, h.took]
    exact ⟨by decide, by decide⟩
  have hagree := (@ready_waits_agree twoRanks streamGeq n h.moves 1 0 (by decide) 3 (n.rank 1) rfl hnear).2.2.2
  have htogether := hagree.mpr (by rw [h.arrived, h.took])
  have hle : 1 + tookCount n.log 1 0 ≤ arrivedNo n.log 1 0 := by rw [h.arrived, h.took]
  exact ⟨n, h.moves, h.arrived, h.took, htogether.cpu.mpr hle, htogether.test.mpr hle, htogether.stream.mpr hle⟩

/-- Rank 1 waits for the next value, where it has arrived. -/
theorem Settled.wait {T : Nat} (h : Settled n (T + 1) T) : ∃ n', Settled n' (T + 1) (T + 1) := by
  have hinv := readyInv_moves h.moves readyInv_init
  have htable := (hinv.table 1 0).2
  have hvalue := hinv.took 1 0
  rw [h.arrived] at htable
  rw [h.took] at hvalue
  have hready : (n.tables 1).notReady 0 = false := by
    refine decide_eq_false ?_
    omega
  have hwait : n.step twoRanks streamGeq (.waitReady 1 0) = some (n.takeNow 1 0) := by
    show (if _ then _ else _) = _
    rw [if_pos ⟨by decide, by decide, hready⟩]
  have hlog : (n.takeNow 1 0).log = n.log ++ [.took 1 0] ++ [.released 1 0 (n.nextNo 1 0)] := rfl
  refine ⟨n.takeNow 1 0, ⟨h.moves.tail ⟨_, hwait⟩, ?_, ?_, ?_, h.flying⟩⟩
  · rw [hlog, sentCount_append, sentCount_append, h.sent]
    simp
  · rw [hlog, arrivedNo_append, arrivedNo_append]
    exact h.arrived
  · rw [hlog, tookCount_append, tookCount_append, tookCount_took, h.took]
    simp

/-- `T` rounds of a notification and a wait. -/
theorem settled_rounds (T : Nat) : ∃ n, Settled n T T := by
  induction T with
  | zero => exact ⟨Net.init, .refl, rfl, rfl, rfl, rfl⟩
  | succ T ih =>
    obtain ⟨n, hn⟩ := ih
    obtain ⟨n₁, h₁⟩ := hn.tell
    exact h₁.wait

/-- After 2^32 - 2 rounds and two more notifications the word in the table has
gone round and is 0, and rank 1 expects 2^32 - 1. The stream passes; the CPU and
the test do not, although the value has been sent and has arrived. -/
theorem cpu_wait_misses_wrapped_word :
    ∃ n c, NetMoves twoRanks streamGeq Net.init n ∧ c.ready = n.tables 1 ∧
      arrivedNo n.log 1 0 = 2 ^ 32 ∧ 1 + tookCount n.log 1 0 = 2 ^ 32 - 1 ∧
      (n.tables 1).readyTable 0 = 0 ∧ (n.tables 1).readyValues 0 = 2 ^ 32 - 1 ∧
      (∀ st, StreamPasses (twoRanks.comm 1) 0 st c) ∧ ¬ CpuPasses (twoRanks.comm 1) 0 c ∧
      ¬ TestPasses (twoRanks.comm 1) 0 c ∧ ∀ st, ¬ PassTogether (twoRanks.comm 1) 0 st c (2 ^ 32) (2 ^ 32 - 1) := by
  obtain ⟨n₀, h₀⟩ := settled_rounds (2 ^ 32 - 2)
  obtain ⟨n₁, h₁⟩ := h₀.tell
  obtain ⟨n, h⟩ := h₁.tell
  have hinv := readyInv_moves h.moves readyInv_init
  have htable : (n.tables 1).readyTable 0 = 0 := by
    rw [(hinv.table 1 0).2, h.arrived]
    decide
  have hvalue : (n.tables 1).readyValues 0 = 2 ^ 32 - 1 := by
    rw [hinv.took 1 0, h.took]
    decide
  have hc : (n.rank 1).ready.notReady 0 = true := by
    show decide ((n.tables 1).readyTable 0 < (n.tables 1).readyValues 0) = true
    rw [htable, hvalue]
    decide
  have hncpu : ¬ CpuPasses (twoRanks.comm 1) 0 (n.rank 1) := by
    rw [cpuPasses_iff (by decide), hc]
    decide
  refine ⟨n, n.rank 1, h.moves, rfl, ?_, ?_, htable, hvalue, fun st => ?_, hncpu, ?_, fun st hp => ?_⟩
  · exact h.arrived
  · rw [h.took]
    decide
  · rw [streamPasses_iff (by decide)]
    show streamGeq ((n.tables 1).readyTable 0) ((n.tables 1).readyValues 0) = true
    rw [htable, hvalue]
    decide
  · rw [testPasses_iff (by decide), hc]
    decide
  · exact hncpu (hp.cpu.mpr (by decide))

end LibMp
