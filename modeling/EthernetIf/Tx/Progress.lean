import EthernetIf.Lib.Progress
import EthernetIf.Tx.Deadlock

/-!
# What was submitted is sent

Freedom from deadlock says that some step can always be taken. Progress says that enough of
them are: once no further chain is submitted, and as long as neither the caller of
`ethernetif_output` nor the DMA is passed over for ever, the call returns and the DMA
transmits everything.

The measure counts what the call has left to do, twice, and the entries which are not on the
wire. Only the poll demand ever gives the DMA something to do again — to look at the ring once
more — and that is worth less than the statement that made it.
-/

namespace EthernetIf

open Lts Ring

variable {P A : Type}

/-! ## The measure -/

/-- Statements left for the fragment at hand, or for the end of the call. -/
def TxStmt.left : TxStmt → Nat
  | .loop => 15
  | .frag f => 14 - f.ctorIdx
  | .testTbus => 3
  | .ackTbus => 2
  | .poll => 1

/-- Statements the call has left to take, at most. -/
def TxCall.left (c : TxCall P A) : Nat := (c.p.frags.length - c.k) * 16 + c.stmt.left

def TxState.left (s : TxState P A) : Nat :=
  match s.call with
  | none => 0
  | some c => c.left

def TxState.rank (s : TxState P A) : Nat :=
  2 * s.left + ((entriesOf s.sent).length - s.wire.length) + (if s.suspended then 0 else 1)

/-- The caller of `ethernetif_output` waits in `while(desc->Status & ETH_TDES0_OWN);`. -/
def Spins (s : TxState P A) : Prop :=
  ∃ c, s.call = some c ∧ c.stmt = .frag .wait ∧ (s.ring s.cur).own = true

theorem FragStmt.ctorIdx_le (f : FragStmt) : f.ctorIdx ≤ 10 := by
  cases f <;> decide

/-- A shorter rest of the call is worth more than all else that a statement changes. -/
theorem TxState.rank_lt {s t : TxState P A} (hleft : t.left < s.left) (hsent : t.sent = s.sent)
    (hwire : t.wire = s.wire) : t.rank < s.rank := by
  simp only [TxState.rank, hsent, hwire]
  split <;> split <;> omega

variable [DecidableEq P]

/-- **A statement of the call** brings its end nearer, unless the call spins. -/
theorem rank_ethernetifOutput {s t : TxState P A} (hstep : s.ethernetifOutput = some t) :
    (t = s ∧ Spins s) ∨ t.rank < s.rank := by
  obtain ⟨c, hcall, ⟨hstmt, rfl⟩ | ⟨f, q, hstmt, hq, rfl⟩ | ⟨hstmt, -, rfl⟩ | ⟨hstmt, -, rfl⟩ |
    ⟨hstmt, rfl⟩ | ⟨hstmt, rfl⟩⟩ := ethernetifOutput_cases hstep
  · right
    refine TxState.rank_lt ?_ rfl rfl
    have hnext : (if c.q.isSome then TxStmt.frag .wait else .testTbus).left < 15 := by
      split <;> decide
    simp only [TxState.left, TxState.goto, TxCall.left, hcall, hstmt]
    exact Nat.add_lt_add_left hnext _
  · have hlt := TxCall.lt_of_q hq
    have hf := f.ctorIdx_le
    obtain ⟨-, -, hsent, hwire, ⟨rfl, hown, heq⟩ | ⟨g, hfg, hg⟩ | ⟨-, hnext⟩⟩ :=
      processTxDescr_cases s c q f
    · exact .inl ⟨heq, c, hcall, hstmt, hown⟩
    · right
      refine TxState.rank_lt ?_ hsent hwire
      have hg10 := g.ctorIdx_le
      simp only [TxState.left, TxCall.left, TxStmt.left, hcall, hg, hstmt]
      omega
    · right
      refine TxState.rank_lt ?_ hsent hwire
      simp only [TxState.left, TxCall.left, TxStmt.left, hcall, hnext, hstmt]
      omega
  · right
    refine TxState.rank_lt ?_ rfl rfl
    simp only [TxState.left, TxState.goto, TxCall.left, hcall, hstmt]
    exact Nat.add_lt_add_left (by decide) _
  · right
    refine TxState.rank_lt ?_ rfl rfl
    simp only [TxState.left, TxCall.left, hcall, hstmt]
    exact Nat.succ_pos _
  · right
    refine TxState.rank_lt ?_ rfl rfl
    simp only [TxState.left, TxState.goto, TxCall.left, hcall, hstmt]
    exact Nat.add_lt_add_left (by decide) _
  · right
    refine TxState.rank_lt ?_ rfl rfl
    simp only [TxState.left, TxCall.left, hcall, hstmt]
    exact Nat.succ_pos _

omit [DecidableEq P] in
/-- **A step of the DMA** puts an entry on the wire, or sends it to sleep. -/
theorem rank_dma {N : Nat} (hN : 0 < N) {s t : TxState P A} {wb : BitVec 32} (h : TxRing N s)
    (hstep : s.dma wb = some t) : t.rank < s.rank := by
  obtain ⟨hrun, ⟨hlt, rfl⟩ | ⟨-, rfl⟩⟩ := h.dma_cases hN hstep
  · have hle := h.submitted
    have hleft : (s.transmit wb).left = s.left := rfl
    have hsent : (s.transmit wb).sent = s.sent := rfl
    simp only [TxState.rank, hleft, hsent]
    simp only [TxState.transmit, List.length_append, List.length_singleton, hrun]
    omega
  · have hleft : s.suspend.left = s.left := rfl
    simp only [TxState.rank, hleft]
    simp [TxState.suspend, hrun]

/-! ## Who can go on -/

/-- A running call always has a statement to take. -/
theorem TxInv.cpu_enabled {N : Nat} {s : TxState P A} {c : TxCall P A} (h : TxInv N s)
    (hcall : s.call = some c) : ∃ t, s.ethernetifOutput = some t := by
  obtain ⟨base, hat⟩ := h.call c hcall
  cases hstmt : c.stmt with
  | frag f =>
    obtain ⟨q, hq, -⟩ := hat.frag f hstmt
    exact ⟨s.processTxDescr c q f, by simp [TxState.ethernetifOutput, hcall, hstmt, hq]⟩
  | loop | testTbus | ackTbus | poll =>
    simp [TxState.ethernetifOutput, hcall, hstmt]

omit [DecidableEq P] in
/-- A DMA that runs, with a descriptor of its own on the ring, transmits. -/
theorem TxRing.dma_enabled {N : Nat} {s : TxState P A} (h : TxRing N s)
    (hsus : s.suspended = false) (hlt : s.wire.length < s.queued) (wb : BitVec 32) :
    s.dma wb = some (s.transmit wb) := by
  have hown : (s.ring s.pos).own = true := by
    rw [h.pos]
    exact (h.fly s.wire.length (Nat.le_refl _) hlt).1
  simp [TxState.dma, hsus, hown]

/-! ## Progress -/

/-- What has to hold while the ring drains: `sent` are chains that fit. -/
def Draining (N : Nat) (sent : List (PbufChain P A)) (s : TxState P A) : Prop :=
  TxInv N s ∧ TxWake s ∧ s.sent = sent

/-- No call runs, and everything is on the wire. -/
def Drained (s : TxState P A) : Prop := s.call = none ∧ s.wire = entriesOf s.sent

/-- A turn of the caller or of the DMA: no further chain is submitted. -/
def TxAct.Quiet (a : TxAct P A) : Prop := ∀ p, a ≠ .output p

/-- The two who take turns. -/
inductive TxParty
  | cpu
  | dma

/-- Whose turn it is. -/
def TxAct.turn : TxAct P A → TxParty → Prop
  | .cpu, .cpu | .dma _, .dma => True
  | _, _ => False

theorem Draining.step {N : Nat} (hN : 0 < N) {sent : List (PbufChain P A)} {s t : TxState P A}
    {a : TxAct P A} (h : Draining N sent s) (ha : a.Quiet) (hstep : txStep s a = some t) :
    Draining N sent t := by
  obtain ⟨hi, hw, hsent⟩ := h
  refine ⟨txInv_step hN hi hstep, txWake_step hN hi hw hstep, ?_⟩
  cases a with
  | output p => exact absurd rfl (ha p)
  | cpu => rw [sent_ethernetifOutput hstep, hsent]
  | dma wb => rw [sent_dma hstep, hsent]

theorem Draining.descends {N : Nat} (hN : 0 < N) {sent : List (PbufChain P A)} {s t : TxState P A}
    {a : TxAct P A} (h : Draining N sent s) (ha : a.Quiet) (hstep : txStep s a = some t) :
    Descends (Helps txStep TxAct.Quiet TxAct.turn TxState.rank) TxState.rank s t := by
  cases a with
  | output p => exact absurd rfl (ha p)
  | cpu =>
    rcases rank_ethernetifOutput hstep with ⟨rfl, -⟩ | hlt
    · exact .refl t
    · exact .inl hlt
  | dma wb => exact .inl (rank_dma hN h.1.ring hstep)

/-- Where not everything is sent, the caller or the DMA brings that nearer. -/
theorem Draining.helps {N : Nat} (hN : 0 < N) {sent : List (PbufChain P A)} {s : TxState P A}
    (hfits : ∀ p ∈ sent, p.frags.length ≤ N) (h : Draining N sent s) (hd : ¬ Drained s) :
    ∃ i, Helps txStep TxAct.Quiet TxAct.turn TxState.rank s i := by
  obtain ⟨hi, hw, rfl⟩ := h
  have hdma : s.suspended = false → s.wire.length < s.queued →
      Helps txStep TxAct.Quiet TxAct.turn TxState.rank s .dma := by
    intro hsus hlt a ha hturn
    cases a with
    | output p => exact absurd rfl (ha p)
    | cpu => cases hturn
    | dma wb =>
      have hstep := hi.ring.dma_enabled hsus hlt wb
      exact ⟨_, hstep, rank_dma hN hi.ring hstep⟩
  cases hcall : s.call with
  | some c =>
    obtain ⟨t, hstep⟩ := hi.cpu_enabled hcall
    rcases rank_ethernetifOutput hstep with ⟨-, hspins⟩ | hlt
    · -- the DMA is awake, for a chain that fits, and the ring is full
      obtain ⟨c, hcall, hstmt, hown⟩ := hspins
      obtain ⟨base, hat⟩ := hi.call c hcall
      have hawake : s.suspended = false := by
        rw [← Bool.not_eq_true]
        intro hsus
        exact not_deadlocked_of_fits hN hi hw hfits ⟨c, hcall, hstmt, hown, hsus⟩
      rw [hat.cur_eq (by simp [hstmt])] at hown
      have hfull : ¬ s.queued < s.wire.length + N := by
        rw [← hi.ring.own_queued hN, hown]
        simp
      exact ⟨.dma, hdma hawake (by omega)⟩
    · refine ⟨.cpu, fun a ha hturn => ?_⟩
      cases a with
      | output p => exact absurd rfl (ha p)
      | cpu => exact ⟨t, hstep, hlt⟩
      | dma wb => cases hturn
  | none =>
    have hqueued := (hi.quiet hcall).1
    have hlt : s.wire.length < (entriesOf s.sent).length := by
      by_contra hge
      apply hd
      refine ⟨hcall, ?_⟩
      rw [hi.ring.wire_eq]
      exact List.take_of_length_le (by omega)
    have hawake : s.suspended = false := by
      rw [← Bool.not_eq_true]
      intro hsus
      have hdrained := hw.drained hsus
      simp only [TxState.inCall, hcall] at hdrained
      omega
    exact ⟨.dma, hdma hawake (by omega)⟩

theorem Drained.step {s t : TxState P A} {a : TxAct P A} (h : Drained s) (ha : a.Quiet)
    {N : Nat} (hN : 0 < N) (hi : TxInv N s) (hstep : txStep s a = some t) : Drained t := by
  obtain ⟨hcall, hwire⟩ := h
  cases a with
  | output p => exact absurd rfl (ha p)
  | cpu => simp [txStep, TxState.ethernetifOutput, hcall] at hstep
  | dma wb =>
    obtain ⟨-, ⟨hlt, -⟩ | ⟨-, rfl⟩⟩ := hi.ring.dma_cases hN hstep
    · rw [(hi.quiet hcall).1, hwire] at hlt
      exact absurd hlt (Nat.lt_irrefl _)
    · exact ⟨hcall, hwire⟩

/-- The caller and the DMA by turns. -/
def byTurns (n : Nat) : TxAct P A := if n % 2 = 0 then .cpu else .dma 0#32

omit [DecidableEq P] in
theorem fair_byTurns : Fair TxAct.turn (byTurns (P := P) (A := A)) := by
  intro i n
  cases i with
  | cpu => exact ⟨2 * n, by omega, by simp [byTurns, TxAct.turn]⟩
  | dma => exact ⟨2 * n + 1, by omega, by simp [byTurns, TxAct.turn, Nat.add_mod]⟩

omit [DecidableEq P] in
theorem quiet_byTurns (n : Nat) : (byTurns n : TxAct P A).Quiet := by
  intro p
  unfold byTurns
  split <;> simp

/-- **Everything submitted is sent, under any fair schedule, exactly when no chain is longer
    than the ring.** For the chains of a set `S`: from every state that any interleaving
    reaches, every schedule of the caller and of the DMA that passes over neither for ever
    brings the running call to its end and every submitted fragment onto the wire, and keeps
    it so, if and only if each chain of `S` has at most `N` fragments. -/
theorem tx_drains_iff (N : Nat) (hN : 0 < N) (S : Set (PbufChain P A)) :
    (∀ as s, (∀ p, TxAct.output p ∈ as → p ∈ S) →
      exec txStep (TxState.init P A N) as = some s →
      ∀ sched : Nat → TxAct P A, (∀ n, (sched n).Quiet) → Fair TxAct.turn sched →
        ∃ n, ∀ m, n ≤ m → (follow txStep s sched m).call = none ∧
          (follow txStep s sched m).wire = entriesOf s.sent) ↔
    ∀ p ∈ S, p.frags.length ≤ N := by
  constructor
  · intro hdrains p hp
    by_contra hlong
    obtain ⟨k, s, hrun, hdead⟩ := deadlock_of_long hN p (Nat.lt_of_not_le hlong)
    have hcalls : ∀ p', TxAct.output p' ∈ TxAct.dma 0#32 :: .output p :: List.replicate k .cpu →
        p' ∈ S := by
      intro p' hp'
      simp only [List.mem_cons, reduceCtorEq, TxAct.output.injEq, List.mem_replicate, and_false,
        or_false, false_or] at hp'
      exact hp' ▸ hp
    obtain ⟨n, hn⟩ := hdrains _ s hcalls hrun byTurns quiet_byTurns fair_byTurns
    have hnone := (hn n (Nat.le_refl n)).1
    rw [follow_stuck (fun a t ht => hdead.stuck ht)] at hnone
    obtain ⟨c, hcall, -⟩ := hdead
    exact absurd (hnone.symm.trans hcall) (by simp)
  · intro hfits as s hcalls hrun sched hquiet hfair
    obtain ⟨hi, hw⟩ := txWake_exec hN hrun
    have hshort : ∀ p ∈ s.sent, p.frags.length ≤ N := fun p hp =>
      hfits p (hcalls p (mem_sent_exec hrun p hp))
    have hstep : ∀ s' (a : TxAct P A) t, Draining N s.sent s' → a.Quiet →
        txStep s' a = some t → Draining N s.sent t := fun _ _ _ h ha => h.step hN ha
    have h₀ : Draining N s.sent s := ⟨hi, hw, rfl⟩
    obtain ⟨n, hn⟩ := eventually_always_of_rank Drained TxState.rank hstep
      (fun _ _ _ h ha ht => h.descends hN ha ht) (fun _ h hd => h.helps hN hshort hd)
      (fun _ _ _ h hd ha => hd.step ha hN h.1) h₀ hquiet hfair
    refine ⟨n, fun m hm => ⟨(hn m hm).1, ?_⟩⟩
    rw [(hn m hm).2, (follow_invariant h₀ hstep hquiet m).2.2]

/-- A chain of two pbufs on a ring of two, submitted while the DMA is asleep. -/
theorem tx_drains_pair :
    ∃ s : TxState Nat Nat,
      exec txStep (TxState.init Nat Nat 2) [.dma 0#32, .output
        { head := { addr := 0, payload := 0, tot_len := 2, len := 1 },
          tail := [{ addr := 1, payload := 1, tot_len := 1, len := 1 }],
          nodup := by decide }, .cpu] = some s ∧
      s.suspended = true ∧ (entriesOf s.sent).length = 2 ∧
      ∃ n, ∀ m, n ≤ m → (follow txStep s byTurns m).call = none ∧
        (follow txStep s byTurns m).wire = entriesOf s.sent := by
  apply exists_exec (fun s => s.suspended && (entriesOf s.sent).length == 2) (by decide +kernel)
  intro s hrun hs
  obtain ⟨hsus, hlen⟩ := Bool.and_eq_true_iff.mp hs
  refine ⟨hsus, by simpa using hlen, (tx_drains_iff 2 (by decide)
    { p | p.frags.length ≤ 2 }).mpr (fun _ hp => hp) _ s (fun p hp => ?_) hrun byTurns
    quiet_byTurns fair_byTurns⟩
  simp only [List.mem_cons, reduceCtorEq, TxAct.output.injEq, List.not_mem_nil,
    or_false, false_or] at hp
  subst hp
  exact Nat.le_refl 2

end EthernetIf
