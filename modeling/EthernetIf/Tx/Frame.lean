import EthernetIf.Tx.Invariant

/-!
# When a frame becomes visible to the DMA

`process_tx_descr` sets OWN fragment by fragment, the first fragment first. From the moment
its first descriptor is handed over until its last one is, a frame of two or more fragments is
visible to the DMA and incomplete; a frame of one fragment never is.
-/

namespace EthernetIf

open Lts Ring

variable {P A : Type}

/-- **A visible frame is complete**: where a descriptor tagged first belongs to the DMA, some
    submitted chain is on the ring from that descriptor on, each of its fragments filled in
    and handed over. -/
def WholeFrames (N : Nat) (s : TxState P A) : Prop :=
  ∀ i < N, (s.ring i).own = true → (s.ring i).entry.first = true →
    ∃ p ∈ s.sent, ∀ e < p.frags.length,
      (s.ring ((i + e) % N)).own = true ∧ p.entries[e]? = some (s.ring ((i + e) % N)).entry

/-- The DMA sleeps between two fragments of one frame: the last entry it consumed was not the
    last of its chain. -/
def StalledMidFrame (s : TxState P A) : Prop :=
  s.suspended = true ∧ ∃ e, s.wire.getLast? = some e ∧ e.last = false

variable [DecidableEq P]

/-- A frame of one fragment is complete as soon as it is visible. -/
theorem wholeFrames_of_single {N : Nat} {s : TxState P A} (h : TxInv N s)
    (hone : ∀ p ∈ s.sent, p.frags.length = 1) : WholeFrames N s := by
  intro i hi hown _
  obtain ⟨k, hge, hlt, rfl⟩ := h.ring.flies_of_own hi hown
  obtain ⟨-, hentry⟩ := h.ring.fly k hge hlt
  obtain ⟨p, hp, hmem⟩ := List.mem_flatMap.mp (List.mem_of_getElem? hentry)
  refine ⟨p, hp, fun e he => ?_⟩
  have he0 : e = 0 := by have := hone p hp; omega
  subst he0
  rw [Nat.add_zero, Nat.mod_mod]
  refine ⟨hown, ?_⟩
  have hlen : p.entries.length = 1 := by rw [PbufChain.length_entries, hone p hp]
  obtain ⟨a, ha⟩ := List.length_eq_one_iff.mp hlen
  rw [ha] at hmem ⊢
  rw [List.mem_singleton.mp hmem]
  rfl

omit [DecidableEq P] in
theorem last_of_single {sent : List (PbufChain P A)} (hone : ∀ p ∈ sent, p.frags.length = 1)
    {e : TxEntry A} (he : e ∈ entriesOf sent) : e.last = true := by
  obtain ⟨p, hp, hmem⟩ := List.mem_flatMap.mp he
  unfold PbufChain.entries at hmem
  obtain ⟨i, hi, rfl⟩ := List.mem_mapIdx.mp hmem
  have hlen := hone p hp
  simp only [hlen, beq_iff_eq]
  omega

/-- Left to itself, a call that has room for its fragment hands it over. -/
theorem handsOver {N : Nat} (hN : 0 < N) {s : TxState P A} {c : TxCall P A} {f : FragStmt}
    (h : TxInv N s) (hcall : s.call = some c) (hstmt : c.stmt = .frag f)
    (hroom : s.queued < s.wire.length + N ∨ f ≠ .wait) :
    ∃ n t, exec txStep s (List.replicate n .cpu) = some t ∧ TxInv N t ∧
      t.call = some { c with stmt := .frag .advance } ∧ t.sent = s.sent ∧ t.wire = s.wire := by
  induction hm : 10 - f.ctorIdx using Nat.strong_induction_on generalizing s c f with
  | _ m ih =>
    subst hm
    by_cases hadv : f = .advance
    · refine ⟨0, s, rfl, h, ?_, rfl, rfl⟩
      rw [hcall, ← hadv, ← hstmt]
    obtain ⟨base, hat⟩ := h.call c hcall
    obtain ⟨q, hq, -⟩ := hat.frag f hstmt
    have hstep : txStep s .cpu = some (s.processTxDescr c q f) := by
      simp [txStep, TxState.ethernetifOutput, hcall, hstmt, hq]
    obtain ⟨-, -, hsent, hwire, ⟨rfl, hown, -⟩ | ⟨g, hfg, hg⟩ | ⟨hadv', -⟩⟩ :=
      processTxDescr_cases s c q f
    · have hidle := (h.ring.own_queued hN).mpr (hroom.resolve_right (by simp))
      rw [← hat.cur_eq (by simp [hstmt])] at hidle
      exact absurd (hown.symm.trans hidle) (by simp)
    · have hg10 : g.ctorIdx ≤ 10 := by cases g <;> decide
      have hgw : g ≠ .wait := by rintro rfl; simp [FragStmt.ctorIdx] at hfg
      obtain ⟨n, t, hrun, ht, hcall', hsent', hwire'⟩ :=
        ih (10 - g.ctorIdx) (by omega) (txInv_step hN h hstep) hg rfl (.inr hgw) rfl
      refine ⟨n + 1, t, ?_, ht, hcall', hsent'.trans hsent, hwire'.trans hwire⟩
      rw [List.replicate_succ, exec_cons, hstep]
      exact hrun
    · exact absurd hadv' hadv

/-- The run: send the chain on an empty ring, up to the hand-over of its first fragment. -/
theorem partial_frame_of_long {N : Nat} (p : PbufChain P A) (hp : 1 < p.frags.length)
    (hpN : p.frags.length ≤ N) :
    ∃ n s, exec txStep (TxState.init P A N) (.output p :: List.replicate n .cpu) = some s ∧
      ¬ WholeFrames N s := by
  have hN : 0 < N := by omega
  obtain ⟨u, hstart, hwait, hsentu, hqueuedu, hwireu⟩ :
      ∃ u, exec txStep (TxState.init P A N) [.output p, .cpu] = some u ∧
        u.call = some { p := p, k := 0, stmt := .frag .wait } ∧
        u.sent = [p] ∧ u.queued = 0 ∧ u.wire = [] := ⟨_, rfl, rfl, rfl, rfl, rfl⟩
  obtain ⟨n, s, hrun, h, hcall, hsent, hwire⟩ :=
    handsOver hN (txInv_exec hN hstart) hwait rfl (.inl (by rw [hqueuedu, hwireu]; simpa using hN))
  refine ⟨n + 1, s, exec_trans hstart hrun, ?_⟩
  -- one descriptor is in flight: slot 0 holds the first fragment, slot 1 is still the CPU's
  obtain ⟨base, hat⟩ := h.call _ hcall
  obtain ⟨pre, hpre, hbase⟩ := hat.sent
  have hsent' : s.sent = [p] := hsent.trans hsentu
  have hwire' : s.wire.length = 0 := by rw [hwire, hwireu]; rfl
  have hbase0 : base = 0 := by
    rw [hsent'] at hpre
    obtain rfl : pre = [] := by
      cases pre with
      | nil => rfl
      | cons a as => simp at hpre
    exact hbase.symm
  have hqueued : s.queued = 1 := by rw [hat.queued, hbase0]; rfl
  obtain ⟨hown, hentry⟩ := h.ring.fly 0 (by omega) (by omega)
  have hidle := h.ring.idle 1 (by omega) (by omega)
  intro hwhole
  rw [hsent', show entriesOf [p] = p.entries by simp [entriesOf]] at hentry
  rw [Nat.zero_mod] at hown hentry
  have hfirst : (s.ring 0).entry.first = true := by
    unfold PbufChain.entries at hentry
    rw [List.getElem?_mapIdx, Option.map_eq_some_iff] at hentry
    obtain ⟨q, -, hq⟩ := hentry
    rw [← hq]
    rfl
  obtain ⟨p', hp', hall⟩ := hwhole 0 hN hown hfirst
  rw [hsent', List.mem_singleton] at hp'
  subst hp'
  have hown1 := (hall 1 hp).1
  rw [Nat.zero_add] at hown1
  exact absurd (hown1.symm.trans hidle) (by simp)

/-- **A visible frame is complete exactly when every frame has one fragment.** For chains of
    at most `N` fragments from a set `S`: no run of any sequence of calls and any interleaving
    with the DMA ever shows the DMA the first descriptor of an incomplete frame, or leaves it
    asleep in the middle of one, if and only if every chain of `S` has a single fragment. -/
theorem tx_wholeFrames_iff (N : Nat) (hN : 0 < N) (S : Set (PbufChain P A))
    (hS : ∀ p ∈ S, p.frags.length ≤ N) :
    (∀ as s, (∀ p, TxAct.output p ∈ as → p ∈ S) →
      exec txStep (TxState.init P A N) as = some s →
        WholeFrames N s ∧ ¬ StalledMidFrame s) ↔
    ∀ p ∈ S, p.frags.length = 1 := by
  constructor
  · intro hwhole p hp
    by_contra hlong
    have hpos : 0 < p.frags.length := Nat.zero_lt_succ _
    obtain ⟨n, s, hrun, hpartial⟩ := partial_frame_of_long p (by omega) (hS p hp)
    refine hpartial (hwhole _ s (fun p' hp' => ?_) hrun).1
    simp only [List.mem_cons, TxAct.output.injEq, List.mem_replicate, reduceCtorEq, and_false,
      or_false] at hp'
    exact hp' ▸ hp
  · intro hone as s hcalls hrun
    have h := txInv_exec hN hrun
    have hone' : ∀ p ∈ s.sent, p.frags.length = 1 := fun p hp =>
      hone p (hcalls p (mem_sent_exec hrun p hp))
    refine ⟨wholeFrames_of_single h hone', ?_⟩
    rintro ⟨-, e, he, hlast⟩
    have hmem : e ∈ entriesOf s.sent := by
      have hwire := List.mem_of_getLast? he
      rw [h.ring.wire_eq] at hwire
      exact List.mem_of_mem_take hwire
    exact absurd (hlast.symm.trans (last_of_single hone' hmem)) (by simp)

/-- A frame of one pbuf, handed over. -/
theorem tx_wholeFrames_single :
    ∃ s : TxState Nat Nat,
      exec txStep (TxState.init Nat Nat 10) (.output
        { head := { addr := 0, payload := 0, tot_len := 60, len := 60 }, tail := [],
          nodup := by decide } :: List.replicate 12 .cpu) = some s ∧
      (s.ring 0).own = true ∧ WholeFrames 10 s ∧ ¬ StalledMidFrame s := by
  apply exists_exec (fun s => (s.ring 0).own) (by decide +kernel)
  intro s hrun hs
  refine ⟨hs, (tx_wholeFrames_iff 10 (by decide) { p | p.frags.length = 1 } fun p hp => ?_).mpr
    (fun _ hp => hp) _ s (fun p hp => ?_) hrun⟩
  · rw [show p.frags.length = 1 from hp]
    decide
  · simp only [List.mem_cons, TxAct.output.injEq, List.mem_replicate, reduceCtorEq, and_false,
      or_false] at hp
    subst hp
    rfl

/-- A frame of two pbufs: a header and its payload. -/
def headerAndPayload : PbufChain Nat Nat where
  head := { addr := 0, payload := 0, tot_len := 100, len := 54 }
  tail := [{ addr := 1, payload := 1, tot_len := 46, len := 46 }]
  nodup := by decide

theorem headerAndPayload_partial :
    ∃ n s, exec txStep (TxState.init Nat Nat 10)
      (.output headerAndPayload :: List.replicate n .cpu) = some s ∧ ¬ WholeFrames 10 s :=
  partial_frame_of_long headerAndPayload (by decide) (by decide)

end EthernetIf
