import Mathlib.Tactic.Ring
import LibMp.Init

/- The shared-memory channels `mp_init` sets up between ranks of one host (mp.c).

   Each rank stores its host name and its GPU, all ranks exchange them, and each
   rank numbers the ranks of its own host in a scan over the job. A buffer of
   the shared file belongs to an ordered pair of these numbers, and each rank
   computes by itself where its buffers are. The numbering is the same on all
   ranks of a host, and if each had its own number too, every pair would find its
   own buffer (`numbered_channels_agree`). But no rank gets that far: `mp_init`
   takes a return of 0 from `gethostname` for an error, and past that no rank has
   a number of its own.

   The exchange and the calls of CUDA and of the file system succeed; the
   entries of a buffer, which are cleared, do not take part. -/
namespace LibMp

/-- `struct node_info`. -/
structure NodeInfo where
  hname : String
  gpuId : Nat

/-- The calls of `mp_init` with IPC on all ranks of a job, each rank a peer of
all: what each gets from `gethostname` and `cudaGetDevice`, where the file is
mapped, and which GPU can reach which. -/
structure IpcJob extends Job where
  gethostname : Nat → Int
  nodeInfo : Nat → NodeInfo
  mmap : Nat → Int
  canAccessPeer : Nat → Nat → Nat → Bool
  pos : 0 < size
  all : ∀ a < size, ∀ b < size, b ∈ (launch a).peers

/-- The fields of `client_t` that concern IPC. -/
structure IpcClient where
  isLocal : Bool := false
  localRank : Nat := 0
  canUseIpc : Bool := false
  localBuffer : Option Int := none
  remoteBuffer : Option Int := none

/-- What one rank's `mp_init` fills in for IPC. -/
structure IpcBoot where
  clients : Int → IpcClient := fun _ => {}
  ipcNumProcs : Nat := 0
  smpNumProcs : Nat := 0
  smpLeader : Nat := 0
  smpLocalRank : Int := -1
  shmClientBufsize : Int := 0
  shmProcBufsize : Int := 0
  shmFilesize : Int := 0
  shmMapptr : Int := 0

/-- Why this part of `mp_init` does not succeed. -/
inductive IpcStop where
  /-- `return MP_FAILURE` -/
  | failure
  /-- `assert(smp_local_rank >= 0)` -/
  | assertLocalRank
  deriving DecidableEq, Repr

abbrev XM := Prog IpcBoot IpcStop

def sizeofSmpBuffer : Nat := 128
def smpDepth : Nat := 256

/-- `for (i = 0; i < mpi_comm_size; i++)`. -/
def forRanks (body : Nat → XM Unit) : Nat → XM Unit
  | 0 => return ()
  | n + 1 => do
    forRanks body n
    body n

variable (job : IpcJob) (rank : Nat) (clientIndex : Nat → Int)

/-- The ranks `a` and `b` have one host name. -/
def IpcJob.sameHost (a b : Nat) : Bool := (job.nodeInfo a).hname = (job.nodeInfo b).hname

def setIpcClient (i : Int) (g : IpcClient → IpcClient) : XM Unit :=
  Prog.modify fun b => { b with clients := Function.update b.clients i (g (b.clients i)) }

/-- The own part of `node_info_all`; a return of 0 from `gethostname` is taken
for an error. -/
def mpInitNodeInfo : XM Unit := Prog.require (job.gethostname rank ≠ 0) .failure

/-- The first rank of the host that the scan meets leads. -/
def pickLeader (i : Nat) : XM Unit :=
  Prog.modify fun b => if b.smpNumProcs = 0 then { b with smpLeader := i } else b

/-- The body of the scan for rank `i`. The test that should find the own rank
compares with the size of the job. -/
def scanRank (i : Nat) : XM Unit := do
  let cidx := clientIndex i
  if i = job.size then
    pickLeader i
    Prog.modify fun b => { b with smpLocalRank := b.smpNumProcs, smpNumProcs := b.smpNumProcs + 1,
                                  ipcNumProcs := b.ipcNumProcs + 1 }
  else if job.sameHost i rank then
    pickLeader i
    let b ← Prog.get
    setIpcClient cidx fun c => { c with isLocal := true, localRank := b.smpNumProcs }
    Prog.modify fun b => { b with smpNumProcs := b.smpNumProcs + 1 }
    if job.canAccessPeer rank (job.nodeInfo rank).gpuId (job.nodeInfo i).gpuId then
      Prog.modify fun b => { b with ipcNumProcs := b.ipcNumProcs + 1 }
      setIpcClient cidx fun c => { c with canUseIpc := true }

/-- The sizes of the shared file, if there is one, and where it is mapped. -/
def mpInitShm : XM Unit :=
  Prog.modify fun b =>
    if b.smpNumProcs > 1 then
      let bufsize := toInt (sizeofSmpBuffer * smpDepth)
      { b with
        shmClientBufsize := bufsize
        shmProcBufsize := bufsize * b.smpNumProcs
        shmFilesize := toInt (sizeofSmpBuffer * smpDepth * b.smpNumProcs * b.smpNumProcs)
        shmMapptr := job.mmap rank }
    else b

/-- The body of the last loop: the two buffers of a channel. -/
def setUpChannel (i : Nat) : XM Unit := do
  let b ← Prog.get
  let cidx := clientIndex i
  if (b.clients cidx).isLocal then
    Prog.require (b.smpLocalRank ≥ 0) .assertLocalRank
    setIpcClient cidx fun c => { c with
      localBuffer := some (b.shmMapptr + b.shmProcBufsize * b.smpLocalRank + b.shmClientBufsize * c.localRank)
      remoteBuffer := some (b.shmMapptr + b.shmProcBufsize * c.localRank + b.shmClientBufsize * b.smpLocalRank) }

/-- `mp_init` after the exchange of `node_info_all`. -/
def mpInitChannels : XM Unit := do
  forRanks (scanRank job rank clientIndex) job.size
  mpInitShm job rank
  forRanks (setUpChannel clientIndex) job.size

/-! ## A job -/

/-- `mp_init` succeeds on all ranks and leaves the tables `conn` and `fin`. -/
def IpcJob.Succeeds (conn : Nat → Boot) (fin : Nat → IpcBoot) : Prop :=
  job.Starts conn ∧ (∀ a < job.size, mpInitNodeInfo job a {} = (.ok (), {})) ∧
  ∀ a < job.size, mpInitChannels job a (conn a).clientIndex {} = (.ok (), fin a)

/-- The offset of an address in the file as it is mapped. -/
def IpcBoot.offset (b : IpcBoot) (addr : Option Int) : Option Int := addr.map (· - b.shmMapptr)

/-- The buffer of a pair of ranks: `smp_depth` entries from an offset. -/
def BuffersApart (x y : Int) : Prop := x + sizeofSmpBuffer * smpDepth ≤ y ∨ y + sizeofSmpBuffer * smpDepth ≤ x

/-- `mp_init` succeeds, and `off a b` is the offset of the buffer from `a` to `b`
on both ranks, inside the file and apart from the buffers of all other pairs. -/
def IpcJob.ChannelsAgree : Prop :=
  ∃ conn fin, job.Succeeds conn fin ∧ ∃ off : Nat → Nat → Int,
    ∀ a < job.size, ∀ b < job.size, a ≠ b → job.sameHost a b →
      (fin a).offset ((fin a).clients ((conn a).clientIndex b)).remoteBuffer = some (off a b) ∧
      (fin b).offset ((fin b).clients ((conn b).clientIndex a)).localBuffer = some (off a b) ∧
      0 ≤ off a b ∧ off a b + sizeofSmpBuffer * smpDepth ≤ (fin a).shmFilesize ∧
      ∀ c < job.size, ∀ d < job.size, c ≠ d → job.sameHost c d → job.sameHost a c → (a, b) ≠ (c, d) →
        BuffersApart (off a b) (off c d)

/-! ## The scan -/

variable {job : IpcJob} {rank : Nat} {clientIndex : Nat → Int}

/-- The ranks below `n` on the host of `rank`. -/
def IpcJob.numLocal (job : IpcJob) (rank n : Nat) : Nat := (List.range n).countP (job.sameHost · rank)

theorem IpcJob.numLocal_succ (n : Nat) :
    job.numLocal rank (n + 1) = job.numLocal rank n + if job.sameHost n rank then 1 else 0 := by
  rw [numLocal, List.range_succ, List.countP_append, List.countP_singleton]
  rfl

/-- Ranks of one host number alike. -/
theorem IpcJob.numLocal_congr {a b : Nat} (h : job.sameHost a b = true) (n : Nat) :
    job.numLocal a n = job.numLocal b n := by
  have hname : (job.nodeInfo a).hname = (job.nodeInfo b).hname := of_decide_eq_true h
  simp only [numLocal, sameHost, hname]

theorem IpcJob.sameHost_comm (a b : Nat) : job.sameHost a b = job.sameHost b a := by
  unfold sameHost
  rw [decide_eq_decide]
  exact eq_comm

theorem IpcJob.sameHost_trans {a b c : Nat} (hab : job.sameHost a b = true) (hbc : job.sameHost b c = true) :
    job.sameHost a c = true :=
  decide_eq_true ((of_decide_eq_true hab).trans (of_decide_eq_true hbc))

/-- A rank of the host is numbered below those after it. -/
theorem IpcJob.numLocal_lt {a n : Nat} (h : job.sameHost a rank = true) (hlt : a < n) :
    job.numLocal rank a < job.numLocal rank n := by
  have hmono : Monotone (job.numLocal rank) := monotone_nat_of_le_succ fun n => by
    rw [numLocal_succ]
    exact Nat.le_add_right ..
  have hnext : job.numLocal rank (a + 1) = job.numLocal rank a + 1 := by rw [numLocal_succ, if_pos h]
  have hle : job.numLocal rank (a + 1) ≤ job.numLocal rank n := hmono hlt
  omega

theorem IpcJob.numLocal_inj {a b : Nat} (ha : job.sameHost a rank = true) (hb : job.sameHost b rank = true)
    (he : job.numLocal rank a = job.numLocal rank b) : a = b := by
  rcases Nat.lt_trichotomy a b with hlt | heq | hgt
  · exact absurd he (Nat.ne_of_lt (numLocal_lt ha hlt))
  · exact heq
  · exact absurd he.symm (Nat.ne_of_lt (numLocal_lt hb hgt))

/-- What the scan does to the client of a rank on the same host. -/
def IpcJob.scanned (job : IpcJob) (rank i number : Nat) (c : IpcClient) : IpcClient :=
  { c with isLocal := true, localRank := number,
           canUseIpc := c.canUseIpc || job.canAccessPeer rank (job.nodeInfo rank).gpuId (job.nodeInfo i).gpuId }

/-- One turn of the scan; the own rank gets no number. -/
theorem scanRank_run {i : Nat} (hi : i < job.size) (b : IpcBoot) :
    ∃ b', scanRank job rank clientIndex i b = (.ok (), b') ∧ b'.smpLocalRank = b.smpLocalRank ∧
      b'.smpNumProcs = b.smpNumProcs + (if job.sameHost i rank then 1 else 0) ∧
      b'.clients = if job.sameHost i rank then
          Function.update b.clients (clientIndex i) (job.scanned rank i b.smpNumProcs (b.clients (clientIndex i)))
        else b.clients := by
  have hpick : ∃ b₁, pickLeader i b = (.ok (), b₁) ∧ b₁.smpLocalRank = b.smpLocalRank ∧
      b₁.smpNumProcs = b.smpNumProcs ∧ b₁.clients = b.clients := by
    refine ⟨_, rfl, ?_⟩
    dsimp only
    split <;> exact ⟨rfl, rfl, rfl⟩
  obtain ⟨b₁, hb₁, hlr, hnp, hcl⟩ := hpick
  unfold scanRank
  rw [if_neg (Nat.ne_of_lt hi)]
  cases hs : job.sameHost i rank with
  | false =>
    rw [if_neg (by simp)]
    exact ⟨b, rfl, rfl, rfl, by simp⟩
  | true =>
    rw [if_pos rfl, Prog.bind_ok hb₁]
    cases hcan : job.canAccessPeer rank (job.nodeInfo rank).gpuId (job.nodeInfo i).gpuId with
    | true =>
      refine ⟨_, rfl, hlr, by simp [hnp], ?_⟩
      simp [IpcJob.scanned, hcan, hnp, hcl]
    | false =>
      refine ⟨_, rfl, hlr, by simp [hnp], ?_⟩
      simp [IpcJob.scanned, hcan, hnp, hcl]

/-- After `n` turns: the ranks of the host below `n` are numbered in order, the
other clients are as they were, and the own number is still -1. -/
theorem scan_ok (hinj : ∀ i < job.size, ∀ j < job.size, clientIndex i = clientIndex j → i = j) {n : Nat}
    (hn : n ≤ job.size) :
    ∃ b, forRanks (scanRank job rank clientIndex) n {} = (.ok (), b) ∧ b.smpLocalRank = -1 ∧
      b.smpNumProcs = job.numLocal rank n ∧
      ∀ i < job.size, b.clients (clientIndex i) =
        if i < n ∧ job.sameHost i rank then job.scanned rank i (job.numLocal rank i) {} else {} := by
  induction n with
  | zero => exact ⟨{}, rfl, rfl, rfl, fun i _ => by simp⟩
  | succ n ih =>
    obtain ⟨b, hb, hlr, hnp, hcl⟩ := ih (by omega)
    obtain ⟨b', hb', hlr', hnp', hcl'⟩ := @scanRank_run job rank clientIndex n hn b
    refine ⟨b', ?_, hlr'.trans hlr, by rw [hnp', hnp, IpcJob.numLocal_succ], fun i hi => ?_⟩
    · rw [forRanks, Prog.bind_ok hb, hb']
    · rw [hcl']
      by_cases hin : i = n
      · subst hin
        cases hs : job.sameHost i rank <;> simp [hcl i hi, hnp]
      · have hidx : clientIndex i ≠ clientIndex n := fun he => hin (hinj i hi n hn he)
        have hold : (if job.sameHost n rank = true then
              Function.update b.clients (clientIndex n) (job.scanned rank n b.smpNumProcs (b.clients (clientIndex n)))
            else b.clients) (clientIndex i) = b.clients (clientIndex i) := by
          split
          · exact Function.update_of_ne hidx ..
          · rfl
        rw [hold, hcl i hi]
        have hlt : i < n + 1 ↔ i < n := by omega
        simp only [hlt]

/-! ## The buffers -/

/-- An invariant of the turns of a loop holds after all of them. -/
theorem forRanks_ok {body : Nat → XM Unit} {P : Nat → IpcBoot → Prop} {n : Nat} {b b' : IpcBoot} (h0 : P 0 b)
    (hstep : ∀ i < n, ∀ s s', P i s → body i s = (.ok (), s') → P (i + 1) s')
    (h : forRanks body n b = (.ok (), b')) : P n b' := by
  induction n generalizing b' with
  | zero =>
    cases h
    exact h0
  | succ n ih =>
    obtain ⟨_, b₁, h₁, h₂⟩ := Prog.bind_eq_ok h
    exact hstep n (Nat.lt_succ_self n) b₁ b' (ih (fun i hi => hstep i (by omega)) h₁) h₂

/-- A turn of the last loop for a rank on the host returns with a number only. -/
theorem setUpChannel_ok {i : Nat} {b b' : IpcBoot} (h : setUpChannel clientIndex i b = (.ok (), b')) :
    ((b.clients (clientIndex i)).isLocal = true → b.smpLocalRank ≥ 0) ∧ b'.smpLocalRank = b.smpLocalRank ∧
    ∀ x, (b'.clients x).isLocal = (b.clients x).isLocal := by
  unfold setUpChannel at h
  obtain ⟨_, b₁, h₁, h₂⟩ := Prog.bind_eq_ok h
  cases h₁
  dsimp only at h₂
  split at h₂
  · obtain ⟨hr, h₃⟩ := require_bind_ok h₂
    cases h₃
    refine ⟨fun _ => of_decide_eq_true hr, rfl, fun x => ?_⟩
    by_cases hx : x = clientIndex i
    · subst hx
      simp
    · simp [hx]
  · rename_i hl
    cases h₂
    exact ⟨fun ht => absurd ht hl, rfl, fun _ => rfl⟩

/-- The own rank is on the own host, so the last loop stops there at the latest. -/
theorem setUpChannels_stop {n : Nat} (hr : rank < n) {b b' : IpcBoot} (hl : b.smpLocalRank = -1)
    (hc : (b.clients (clientIndex rank)).isLocal = true) :
    forRanks (setUpChannel clientIndex) n b ≠ (.ok (), b') := by
  intro h
  have hinv := forRanks_ok
    (P := fun i s => i ≤ rank ∧ s.smpLocalRank = -1 ∧ (s.clients (clientIndex rank)).isLocal = true)
    ⟨Nat.zero_le _, hl, hc⟩ ?_ h
  · omega
  · rintro i hi s s' ⟨hle, hsl, hsc⟩ hstep
    obtain ⟨hnum, hsl', hsc'⟩ := setUpChannel_ok hstep
    have hne : i ≠ rank := by
      rintro rfl
      have := hnum hsc
      omega
    exact ⟨by omega, hsl'.trans hsl, (hsc' _).trans hsc⟩

/-! ## The layout -/

/-- With `p` ranks on the host, the offset of the buffer in which number `x`
gets what number `y` sends. -/
def bufferOffset (p x y : Nat) : Int := sizeofSmpBuffer * smpDepth * (p * x + y)

/-- The buffers of different pairs are apart, and all are in the file. -/
theorem buffers_apart {p x y x' y' : Nat} (hx : x < p) (hy : y < p) (hy' : y' < p) (hne : (x, y) ≠ (x', y')) :
    BuffersApart (bufferOffset p x y) (bufferOffset p x' y') ∧ 0 ≤ bufferOffset p x y ∧
    bufferOffset p x y + sizeofSmpBuffer * smpDepth ≤ sizeofSmpBuffer * smpDepth * p * p := by
  have hslot : p * x + y ≠ p * x' + y' := by
    intro he
    have hyy : y = y' := by
      have := congrArg (· % p) he
      simpa [Nat.mul_add_mod, Nat.mod_eq_of_lt hy, Nat.mod_eq_of_lt hy'] using this
    subst hyy
    have hxx : x = x' := Nat.eq_of_mul_eq_mul_left (by omega) (Nat.add_right_cancel he)
    exact hne (by rw [hxx])
  have hlast : p * x + y + 1 ≤ p * p := calc
    p * x + y + 1 ≤ p * x + p := Nat.add_le_add_left hy (p * x)
    _ = p * (x + 1) := (Nat.mul_succ p x).symm
    _ ≤ p * p := Nat.mul_le_mul_left p hx
  unfold BuffersApart bufferOffset sizeofSmpBuffer smpDepth
  rw [Int.mul_assoc _ (p : Int) p]
  omega

/-- The sizes for fewer than 256 ranks on the host; from 256 on the size of the
file does not fit into an `int`. -/
theorem mpInitShm_run {b : IpcBoot} (h1 : 1 < b.smpNumProcs) (hp : b.smpNumProcs < 256) :
    mpInitShm job rank b = (.ok (), { b with
      shmClientBufsize := sizeofSmpBuffer * smpDepth
      shmProcBufsize := sizeofSmpBuffer * smpDepth * b.smpNumProcs
      shmFilesize := sizeofSmpBuffer * smpDepth * b.smpNumProcs * b.smpNumProcs
      shmMapptr := job.mmap rank }) := by
  have hsq : b.smpNumProcs * b.smpNumProcs ≤ 255 * 255 := Nat.mul_le_mul (by omega) (by omega)
  have hfile : toInt (sizeofSmpBuffer * smpDepth * b.smpNumProcs * b.smpNumProcs) =
      sizeofSmpBuffer * smpDepth * b.smpNumProcs * b.smpNumProcs := by
    have hlt : sizeofSmpBuffer * smpDepth * b.smpNumProcs * b.smpNumProcs < 2 ^ 31 := calc
      sizeofSmpBuffer * smpDepth * b.smpNumProcs * b.smpNumProcs
        = sizeofSmpBuffer * smpDepth * (b.smpNumProcs * b.smpNumProcs) := Nat.mul_assoc ..
      _ ≤ sizeofSmpBuffer * smpDepth * (255 * 255) := Nat.mul_le_mul_left _ hsq
      _ < 2 ^ 31 := by decide
    rw [toInt_eq_self hlt]
    push_cast
    rfl
  have hbuf : toInt (sizeofSmpBuffer * smpDepth) = sizeofSmpBuffer * smpDepth := toInt_eq_self (by decide)
  unfold mpInitShm
  rw [Prog.modify_run, if_pos h1, hfile, hbuf]

/-- What a rank would have before the last loop if the scan stored its own number:
it knows the number of every rank on its host, and the sizes are for all of them. -/
structure HasNumber (job : IpcJob) (rank : Nat) (clientIndex : Nat → Int) (b : IpcBoot) : Prop where
  own : b.smpLocalRank = job.numLocal rank rank
  isLocal : ∀ i < job.size, (b.clients (clientIndex i)).isLocal = job.sameHost i rank
  localRank : ∀ i < job.size, job.sameHost i rank = true → (b.clients (clientIndex i)).localRank = job.numLocal rank i
  bufsize : b.shmClientBufsize = sizeofSmpBuffer * smpDepth
  procBufsize : b.shmProcBufsize = sizeofSmpBuffer * smpDepth * job.numLocal rank job.size
  filesize : b.shmFilesize = sizeofSmpBuffer * smpDepth * job.numLocal rank job.size * job.numLocal rank job.size

/-- That is all that is missing, if there are two ranks on the host at least. -/
theorem scan_numbered (hinj : ∀ i < job.size, ∀ j < job.size, clientIndex i = clientIndex j → i = j)
    (h1 : 1 < job.numLocal rank job.size) (hp : job.numLocal rank job.size < 256) :
    ∃ b b', forRanks (scanRank job rank clientIndex) job.size {} = (.ok (), b) ∧
      mpInitShm job rank { b with smpLocalRank := job.numLocal rank rank } = (.ok (), b') ∧
      HasNumber job rank clientIndex b' := by
  obtain ⟨b, hb, -, hnp, hcl⟩ := @scan_ok job rank clientIndex hinj job.size (Nat.le_refl _)
  have hshm := @mpInitShm_run job rank { b with smpLocalRank := job.numLocal rank rank } (by rwa [← hnp] at h1)
    (by rwa [← hnp] at hp)
  refine ⟨b, _, hb, hshm, rfl, fun i hi => ?_, fun i hi hs => ?_, rfl, ?_, ?_⟩
  · dsimp only
    rw [hcl i hi]
    cases hs : job.sameHost i rank <;> simp [hi, IpcJob.scanned]
  · dsimp only
    rw [hcl i hi, if_pos ⟨hi, hs⟩]
    rfl
  · dsimp only
    rw [hnp]
  · dsimp only
    rw [hnp]

/-- The client at `i` with the two buffers of its channel. -/
def IpcBoot.channel (b : IpcBoot) (i : Int) : IpcBoot :=
  let c := b.clients i
  { b with clients := Function.update b.clients i { c with
    localBuffer := some (b.shmMapptr + b.shmProcBufsize * b.smpLocalRank + b.shmClientBufsize * c.localRank)
    remoteBuffer := some (b.shmMapptr + b.shmProcBufsize * c.localRank + b.shmClientBufsize * b.smpLocalRank) } }

/-- A rank whose own number is stored goes through a turn of the last loop. -/
theorem setUpChannel_run {i : Nat} {b : IpcBoot} (hown : 0 ≤ b.smpLocalRank) : setUpChannel clientIndex i b =
    (.ok (), if (b.clients (clientIndex i)).isLocal then b.channel (clientIndex i) else b) := by
  unfold setUpChannel
  rw [Prog.bind_ok (Prog.get_run b)]
  cases hl : (b.clients (clientIndex i)).isLocal with
  | true =>
    rw [if_pos rfl, if_pos rfl, Prog.bind_run, Prog.require, if_pos (decide_eq_true hown)]
    rfl
  | false =>
    rw [if_neg (by decide), if_neg (by decide)]
    rfl

namespace HasNumber
variable {b : IpcBoot}

/-- The buffers of a channel do not touch what the numbers are read from. -/
theorem channel (h : HasNumber job rank clientIndex b) (x : Int) : HasNumber job rank clientIndex (b.channel x) := by
  have hclient : ∀ y, ((b.channel x).clients y).isLocal = (b.clients y).isLocal ∧
      ((b.channel x).clients y).localRank = (b.clients y).localRank := by
    intro y
    unfold IpcBoot.channel
    dsimp only
    by_cases hy : y = x
    · subst hy
      rw [Function.update_self]
      exact ⟨rfl, rfl⟩
    · rw [Function.update_of_ne hy]
      exact ⟨rfl, rfl⟩
  exact ⟨h.own, fun i hi => (hclient _).1.trans (h.isLocal i hi),
    fun i hi hs => (hclient _).2.trans (h.localRank i hi hs), h.bufsize, h.procBufsize, h.filesize⟩

/-- The two buffers are those of the pair of numbers. -/
theorem channel_offset (h : HasNumber job rank clientIndex b) {i : Nat} (hi : i < job.size)
    (hs : job.sameHost i rank = true) :
    (b.channel (clientIndex i)).offset ((b.channel (clientIndex i)).clients (clientIndex i)).localBuffer =
      some (bufferOffset (job.numLocal rank job.size) (job.numLocal rank rank) (job.numLocal rank i)) ∧
    (b.channel (clientIndex i)).offset ((b.channel (clientIndex i)).clients (clientIndex i)).remoteBuffer =
      some (bufferOffset (job.numLocal rank job.size) (job.numLocal rank i) (job.numLocal rank rank)) := by
  unfold IpcBoot.channel IpcBoot.offset bufferOffset
  dsimp only
  rw [Function.update_self, h.own, h.bufsize, h.procBufsize, h.localRank i hi hs]
  simp only [Option.map_some, Option.some.injEq]
  constructor <;> ring

/-- The last loop goes through, and each turn sets up its channel. -/
theorem setUpChannels (hinj : ∀ i < job.size, ∀ j < job.size, clientIndex i = clientIndex j → i = j)
    (h : HasNumber job rank clientIndex b) {n : Nat} (hn : n ≤ job.size) :
    ∃ b', forRanks (setUpChannel clientIndex) n b = (.ok (), b') ∧ HasNumber job rank clientIndex b' ∧
      ∀ i < n, job.sameHost i rank = true →
        b'.offset (b'.clients (clientIndex i)).localBuffer =
          some (bufferOffset (job.numLocal rank job.size) (job.numLocal rank rank) (job.numLocal rank i)) ∧
        b'.offset (b'.clients (clientIndex i)).remoteBuffer =
          some (bufferOffset (job.numLocal rank job.size) (job.numLocal rank i) (job.numLocal rank rank)) := by
  induction n with
  | zero => exact ⟨b, rfl, h, nofun⟩
  | succ n ih =>
    obtain ⟨b₁, hb₁, h₁, hset⟩ := ih (Nat.le_of_succ_le hn)
    have hrun : forRanks (setUpChannel clientIndex) (n + 1) b =
        (.ok (), if (b₁.clients (clientIndex n)).isLocal then b₁.channel (clientIndex n) else b₁) := by
      rw [forRanks, Prog.bind_ok hb₁]
      exact setUpChannel_run (by rw [h₁.own]; exact Int.natCast_nonneg _)
    rw [h₁.isLocal n hn] at hrun
    cases hs : job.sameHost n rank with
    | false =>
      rw [hs, if_neg (by decide)] at hrun
      refine ⟨b₁, hrun, h₁, fun i hi hsi => hset i ?_ hsi⟩
      rcases Nat.lt_succ_iff_lt_or_eq.mp hi with hlt | rfl
      · exact hlt
      · rw [hs] at hsi
        cases hsi
    | true =>
      rw [hs, if_pos rfl] at hrun
      refine ⟨_, hrun, h₁.channel _, fun i hi hsi => ?_⟩
      rcases Nat.lt_succ_iff_lt_or_eq.mp hi with hlt | rfl
      · -- the channel of an earlier turn
        have hne : clientIndex i ≠ clientIndex n := fun he => by
          have := hinj i (by omega) n hn he
          omega
        have hsame : (b₁.channel (clientIndex n)).clients (clientIndex i) = b₁.clients (clientIndex i) :=
          Function.update_of_ne hne ..
        rw [hsame]
        exact hset i hlt hsi
      · exact h₁.channel_offset hn hs

end HasNumber

/-- The offset of the buffer from rank `a` to rank `b`. -/
def IpcJob.channelOffset (job : IpcJob) (a b : Nat) : Int :=
  bufferOffset (job.numLocal a job.size) (job.numLocal a b) (job.numLocal a a)

/-- If all ranks had their own numbers, the two ends of every channel would find
the same buffer, in the file and apart from the buffers of all other channels of
the host. -/
theorem numbered_channels_agree {clientIndex : Nat → Nat → Int} {boot : Nat → IpcBoot}
    (hinj : ∀ a < job.size, ∀ i < job.size, ∀ j < job.size, clientIndex a i = clientIndex a j → i = j)
    (h : ∀ a < job.size, HasNumber job a (clientIndex a) (boot a)) :
    ∃ fin : Nat → IpcBoot,
      (∀ a < job.size, forRanks (setUpChannel (clientIndex a)) job.size (boot a) = (.ok (), fin a)) ∧
      ∀ a < job.size, ∀ b < job.size, job.sameHost a b = true →
        (fin a).offset ((fin a).clients (clientIndex a b)).remoteBuffer = some (job.channelOffset a b) ∧
        (fin b).offset ((fin b).clients (clientIndex b a)).localBuffer = some (job.channelOffset a b) ∧
        0 ≤ job.channelOffset a b ∧ job.channelOffset a b + sizeofSmpBuffer * smpDepth ≤ (fin a).shmFilesize ∧
        ∀ c < job.size, ∀ d < job.size, job.sameHost c d = true → job.sameHost a c = true → (a, b) ≠ (c, d) →
          BuffersApart (job.channelOffset a b) (job.channelOffset c d) := by
  have hloops : ∀ a, ∃ fin, a < job.size → forRanks (setUpChannel (clientIndex a)) job.size (boot a) = (.ok (), fin) ∧
      HasNumber job a (clientIndex a) fin ∧ ∀ i < job.size, job.sameHost i a = true →
        fin.offset (fin.clients (clientIndex a i)).localBuffer =
          some (bufferOffset (job.numLocal a job.size) (job.numLocal a a) (job.numLocal a i)) ∧
        fin.offset (fin.clients (clientIndex a i)).remoteBuffer =
          some (bufferOffset (job.numLocal a job.size) (job.numLocal a i) (job.numLocal a a)) := by
    intro a
    by_cases ha : a < job.size
    · obtain ⟨fin, hfin⟩ := (h a ha).setUpChannels (hinj a ha) (Nat.le_refl _)
      exact ⟨fin, fun _ => hfin⟩
    · exact ⟨{}, fun ha' => absurd ha' ha⟩
  choose fin hfin using hloops
  refine ⟨fin, fun a ha => (hfin a ha).1, fun a ha b hb hab => ?_⟩
  have hba : job.sameHost b a = true := by rwa [IpcJob.sameHost_comm]
  have haa : job.sameHost a a = true := decide_eq_true rfl
  -- the ranks of a host number alike
  have hnum := fun n => IpcJob.numLocal_congr hab n
  have hlt : ∀ {i}, i < job.size → job.sameHost i a = true → job.numLocal a i < job.numLocal a job.size :=
    fun hi hs => IpcJob.numLocal_lt hs hi
  have hlocal : (fin b).offset ((fin b).clients (clientIndex b a)).localBuffer = some (job.channelOffset a b) := by
    rw [((hfin b hb).2.2 a ha hab).1, ← hnum, ← hnum, ← hnum]
    rfl
  have hlen : (fin a).shmFilesize =
      sizeofSmpBuffer * smpDepth * job.numLocal a job.size * job.numLocal a job.size := (hfin a ha).2.1.filesize
  have hin := @buffers_apart (job.numLocal a job.size) (job.numLocal a b) (job.numLocal a a) (job.numLocal a b + 1) 0
    (hlt hb hba) (hlt ha haa) (by have := hlt ha haa; omega) (by simp)
  refine ⟨((hfin a ha).2.2 b hb hba).2, hlocal, hin.2.1, by rw [hlen]; exact hin.2.2, fun c hc d hd hcd hac hne => ?_⟩
  have hca : job.sameHost c a = true := by rwa [IpcJob.sameHost_comm]
  have hda : job.sameHost d a = true := by
    rw [IpcJob.sameHost_comm]
    exact IpcJob.sameHost_trans hac hcd
  have hoff : job.channelOffset c d = bufferOffset (job.numLocal a job.size) (job.numLocal a d) (job.numLocal a c) := by
    unfold IpcJob.channelOffset
    rw [← IpcJob.numLocal_congr hac, ← IpcJob.numLocal_congr hac, ← IpcJob.numLocal_congr hac]
  rw [hoff]
  refine (buffers_apart (hlt hb hba) (hlt ha haa) (hlt hc hca) fun he => hne ?_).1
  rw [IpcJob.numLocal_inj haa hca (Prod.mk.inj he).2, IpcJob.numLocal_inj hba hda (Prod.mk.inj he).1]

/-! ## No rank gets that far -/

/-- `gethostname` returns 0 when it succeeds, and `mp_init` fails then. -/
theorem mpInitNodeInfo_fails (h : job.gethostname rank = 0) (b : IpcBoot) :
    mpInitNodeInfo job rank b = (.error .failure, b) := by
  rw [mpInitNodeInfo, h]
  rfl

/-- Nor does the rest succeed: the own rank counts as a rank on the host, and its
number is never stored. -/
theorem mpInitChannels_stop (hr : rank < job.size)
    (hinj : ∀ i < job.size, ∀ j < job.size, clientIndex i = clientIndex j → i = j) (b' : IpcBoot) :
    mpInitChannels job rank clientIndex {} ≠ (.ok (), b') := by
  intro h
  obtain ⟨b, hb, hlr, -, hcl⟩ := @scan_ok job rank clientIndex hinj job.size (Nat.le_refl _)
  unfold mpInitChannels at h
  rw [Prog.bind_ok hb] at h
  obtain ⟨_, b₂, h₂, h₃⟩ := Prog.bind_eq_ok h
  have hshm : b₂.smpLocalRank = b.smpLocalRank ∧ b₂.clients = b.clients := by
    unfold mpInitShm at h₂
    rw [Prog.modify_run] at h₂
    cases h₂
    dsimp only
    split <;> exact ⟨rfl, rfl⟩
  refine setUpChannels_stop hr (hshm.1.trans hlr) ?_ h₃
  rw [hshm.2, hcl rank hr, if_pos ⟨hr, decide_eq_true rfl⟩]
  rfl

/-- Distinct ranks of the job have distinct clients. -/
theorem IpcJob.clientIndex_inj {conn : Nat → Boot} (hs : job.Starts conn) {a : Nat} (ha : a < job.size) :
    ∀ i < job.size, ∀ j < job.size, (conn a).clientIndex i = (conn a).clientIndex j → i = j := by
  intro i hi j hj he
  obtain ⟨x, hx⟩ := List.mem_iff_getElem?.mp (job.all a ha i hi)
  obtain ⟨y, hy⟩ := List.mem_iff_getElem?.mp (job.all a ha j hj)
  have hix := hs.clientIndex ha i
  have hjy := hs.clientIndex ha j
  rw [clientIndexFrom_of_get (job.nodup a ha) hx] at hix
  rw [clientIndexFrom_of_get (job.nodup a ha) hy] at hjy
  have hxy : x = y := by
    rw [hix, hjy] at he
    simpa using he
  rw [hxy, hy] at hx
  exact (Option.some.inj hx).symm

/-- In no job does `mp_init` set up the channels, whatever `gethostname` returns. -/
theorem ipc_channels_never_set_up (job : IpcJob) : ¬job.ChannelsAgree := by
  rintro ⟨conn, fin, ⟨hs, -, hfin⟩, -⟩
  exact mpInitChannels_stop job.pos (job.clientIndex_inj hs job.pos) (fin 0) (hfin 0 job.pos)

/-- Two ranks on one host, and `gethostname` succeeds on both. -/
def twoOnOneHost : IpcJob where
  size := 2
  launch a := { peers := [0, 1], lid := 7, createQp := fun i => some (20 + 2 * a + i) }
  nodup := by decide
  range := by decide
  symm := by decide
  gethostname := fun _ => 0
  nodeInfo a := ⟨"node", a⟩
  mmap := fun _ => 2 ^ 40
  canAccessPeer := fun _ _ _ => true
  pos := by decide
  all := by decide

/-- `mp_init` returns MP_FAILURE on both. -/
theorem two_on_one_host_fail :
    (∀ a < 2, mpInitNodeInfo twoOnOneHost a {} = (.error .failure, {})) ∧ ¬twoOnOneHost.ChannelsAgree := by
  refine ⟨fun a _ => mpInitNodeInfo_fails rfl {}, ?_⟩
  rintro ⟨conn, fin, ⟨-, hinfo, -⟩, -⟩
  have h := hinfo 0 (by decide)
  rw [mpInitNodeInfo_fails (show twoOnOneHost.gethostname 0 = 0 from rfl)] at h
  cases h

end LibMp
