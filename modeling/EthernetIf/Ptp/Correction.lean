import EthernetIf.Ptp.Discipline

/-!
# The frequency correction survives every time step

A coarse update clears `ETH_PTPTSAR`, so `portPTPUpdateCoarse` saves the addend before the
step and loads it again behind it. Neither it nor `portPTPUpdateFine` waits for the `TTSARU`
it issues last: a call can begin while the addend of the one before is still on its way, and
the MAC may take it at any time. What is kept nevertheless:

> `ETH_PTPTSAR` holds the addend last computed, and the addend in force is that one too, or an
> update is pending that has **not yet taken** `ETH_PTPTSAR` (`PtpData.Kept`).

The second half is what makes the order of calls immaterial: an update that has not taken the
register will take whatever is in it then. This holds although the discipline of
`Ptp/Discipline` does not — the addend written under a pending update is taken twice, and a
`TTSARU` written back by `portPTPSetTime` takes the same addend again.
-/

namespace EthernetIf

open Lts Outline

/-! ## What is kept -/

/-- `ETH_PTPTSAR` holds the addend last computed. -/
def PtpData.Loaded (d : PtpData) : Prop := d.regs.ETH_PTPTSAR = d.want

/-- … and it is in force, or will be when the pending update has taken it. -/
def PtpData.Kept (d : PtpData) : Prop :=
  d.Loaded ∧ ((d.pending .ttsaru = true ∧ d.latched = false) ∨ d.inForce = d.want)

/-- `portPTPUpdateCoarse` has the addend, and it is in force. -/
def PtpData.Saved (d : PtpData) : Prop := d.inForce = d.want ∧ d.addend = d.want

theorem PtpData.want_of_mac {d d' : PtpData} {e : MacAct} (h : d.mac e = some d') :
    d'.want = d.want ∧ d'.addend = d.addend := by
  rcases PtpData.mac_cases h with ⟨-, rfl⟩ | ⟨c', -, -, -, rfl⟩ | ⟨-, rfl⟩
  · exact ⟨rfl, rfl⟩
  · exact ⟨rfl, rfl⟩
  · exact ⟨rfl, rfl⟩

/-- An assertion beside a list of commands that may be pending. -/
abbrev PtpData.With (l : List PtpCmd) (X : PtpData → Prop) (d : PtpData) : Prop :=
  d.AtMost l ∧ X d

section Stable

variable {l : List PtpCmd}

/-- Only a coarse update clears the register. -/
theorem stable_loaded (h : .tsstu ∉ l) :
    Stable (fun e (d : PtpData) => d.mac e) (PtpData.With l PtpData.Loaded) := by
  intro e d d' ⟨hl, hd⟩ hstep
  refine ⟨stable_atMost l e d d' hl hstep, ?_⟩
  rcases PtpData.mac_cases hstep with ⟨-, rfl⟩ | ⟨c, -, -, -, rfl⟩ | ⟨hp, rfl⟩
  · exact hd
  · exact hd
  · exact absurd (hl _ hp) h

theorem stable_kept (h : .tsstu ∉ l) :
    Stable (fun e (d : PtpData) => d.mac e) (PtpData.With l PtpData.Kept) := by
  intro e d d' ⟨hl, hload, hforce⟩ hstep
  refine ⟨stable_atMost l e d d' hl hstep, (stable_loaded h e d d' ⟨hl, hload⟩ hstep).2, ?_⟩
  rcases PtpData.mac_cases hstep with ⟨-, rfl⟩ | ⟨c, hc, hlatch, -, rfl⟩ | ⟨hp, rfl⟩
  · -- the update takes the register
    exact .inr hload
  · rcases hforce with ⟨hpend, hnot⟩ | hforce
    · -- an update that has not taken the register is not the one that is done
      have hne : c ≠ .ttsaru := by
        intro heq
        rw [hlatch heq] at hnot
        simp at hnot
      left
      rw [PtpData.pending_clear, hpend]
      exact ⟨by simp [hne], hnot⟩
    · exact .inr hforce
  · exact absurd (hl _ hp) h

theorem stable_saved (h : .ttsaru ∉ l) :
    Stable (fun e (d : PtpData) => d.mac e) (PtpData.With l PtpData.Saved) := by
  intro e d d' ⟨hl, hforce, hadd⟩ hstep
  refine ⟨stable_atMost l e d d' hl hstep, ?_⟩
  rcases PtpData.mac_cases hstep with ⟨hp, rfl⟩ | ⟨c, -, -, -, rfl⟩ | ⟨-, rfl⟩
  · exact absurd (hl _ hp) h
  · exact ⟨hforce, hadd⟩
  · exact ⟨hforce, hadd⟩

end Stable

/-! ## The rules -/

/-- An outline with nothing to meet at the statements. -/
abbrev Tracks : (PtpData → Prop) → List PtpStmt → (PtpData → Prop) → Prop :=
  Proves PtpStmt.run (fun e d => d.mac e) (fun _ _ => True) fun _ _ => True

section Rules

variable {l k : List PtpCmd} {X Y : PtpData → Prop} {p : List PtpStmt} {B : PtpData → Prop}

/-- A statement that sets no command bit. -/
theorem tracks_other {st : PtpStmt}
    (hX : Stable (fun e (d : PtpData) => d.mac e) (PtpData.With l X))
    (hrun : ∀ d, (st.run d).2 = true ∧ ∀ c, (st.run d).1.pending c = d.pending c)
    (hY : ∀ d, d.AtMost l → X d → Y (st.run d).1) (hp : Tracks (PtpData.With l Y) p B) :
    Tracks (PtpData.With l X) (st :: p) B := by
  refine .once hX ?_ hp
  intro d ⟨hl, hd⟩ _
  refine ⟨trivial, (hrun d).1, ?_, hY d hl hd⟩
  intro c hc
  rw [(hrun d).2 c] at hc
  exact hl c hc

/-- An addend is computed, and written at once. -/
theorem tracks_addend {v : BitVec 32}
    (hX : Stable (fun e (d : PtpData) => d.mac e) (PtpData.With l X))
    (hp : Tracks (PtpData.With l PtpData.Loaded) p B) :
    Tracks (PtpData.With l X) (.writeAddend v :: p) B :=
  tracks_other hX (fun _ => ⟨rfl, fun _ => rfl⟩) (fun _ _ _ => rfl) hp

/-- The three statements that fill the update registers. -/
theorem tracks_writeTime {t : PtpTime}
    (hX : Stable (fun e (d : PtpData) => d.mac e) (PtpData.With l X))
    (hkeep : ∀ (d : PtpData) (r : PtpRegs), r.ETH_PTPTSCR = d.regs.ETH_PTPTSCR →
      r.ETH_PTPTSAR = d.regs.ETH_PTPTSAR → X d → X { d with regs := r })
    (hp : Tracks (PtpData.With l X) p B) :
    Tracks (PtpData.With l X) (.writeSign t :: .writeSec t :: .writeSubsec t :: p) B := by
  refine tracks_other hX (fun d => ⟨rfl, fun _ => rfl⟩) (fun d _ => hkeep d _ rfl rfl) ?_
  refine tracks_other hX (fun d => ⟨rfl, fun _ => rfl⟩) (fun d _ => hkeep d _ rfl rfl) ?_
  exact tracks_other hX (fun d => ⟨rfl, fun _ => rfl⟩) (fun d _ => hkeep d _ rfl rfl) hp

theorem tracks_wait {m : BitVec 32}
    (hX : Stable (fun e (d : PtpData) => d.mac e) (PtpData.With l X))
    (hlook : ∀ d, X d → X d.look) (h : ∀ c ∈ l, tst m c.mask = false → c ∈ k)
    (hY : ∀ d, d.AtMost k → X d → Y d) (hp : Tracks (PtpData.With k Y) p B) :
    Tracks (PtpData.With l X) (.wait m :: p) B := by
  refine .cons hX ?_ hp
  intro d ⟨hl, hd⟩ _
  refine ⟨trivial, ?_⟩
  split
  next hover =>
    have hl' : d.AtMost k := hl.of_wait (by simpa [PtpStmt.run] using hover) h
    exact ⟨hl', hY d.look hl' (hlook d hd)⟩
  next => exact ⟨hl, hlook d hd⟩

/-- What the read of a read-modify-write knows: every command still pending is in the word,
    and the word has no others than those that were. -/
def PtpData.Scr (l : List PtpCmd) (d : PtpData) : Prop :=
  (∀ c : PtpCmd, d.pending c = true → tst d.scr c.mask = true) ∧
    ∀ c : PtpCmd, tst d.scr c.mask = true → c ∈ l

theorem stable_scr (l : List PtpCmd) :
    Stable (fun e (d : PtpData) => d.mac e) (PtpData.Scr l) := by
  intro e d d' ⟨hpend, hword⟩ hstep
  have hscr := (PtpData.scr_of_mac hstep).1
  constructor
  · intro c hc
    rw [hscr]
    exact hpend c (PtpData.pending_of_mac hstep hc)
  · intro c hc
    rw [hscr] at hc
    exact hword c hc

/-- A read-modify-write that sets bits writes back every command still pending. -/
theorem tracks_setBits {m : BitVec 32}
    (hX : Stable (fun e (d : PtpData) => d.mac e) (PtpData.With l X))
    (hread : ∀ d, X d → X (PtpStmt.readScr.run d).1) (hl : ∀ c ∈ l, c ∈ k)
    (hm : ∀ c : PtpCmd, tst m c.mask = true → c ∈ k)
    (hY : ∀ (d : PtpData) (w : BitVec 32), d.AtMost l → X d →
      (∀ c : PtpCmd, d.pending c = true ∨ tst m c.mask = true → tst w c.mask = true) →
      Y (d.writeScr w))
    (hp : Tracks (PtpData.With k Y) p B) :
    Tracks (PtpData.With l X) (.readScr :: .setScr m :: p) B := by
  refine .once (D := fun d => d.With l X ∧ d.Scr l) hX ?_
    (.once (hX.and (stable_scr l)) ?_ hp)
  · intro d ⟨hd, hx⟩ _
    exact ⟨trivial, rfl, ⟨hd, hread d hx⟩, fun c hc => hc, fun c hc => hd c hc⟩
  · intro d ⟨⟨hd, hx⟩, hpend, hword⟩ _
    have hset : ∀ c : PtpCmd,
        tst (d.scr ||| m) c.mask = (tst d.scr c.mask || tst m c.mask) := fun c => tst_or _ _ _
    refine ⟨trivial, rfl, ?_, hY d _ hd hx ?_⟩
    · intro c hc
      have hw : tst (d.scr ||| m) c.mask = true := hc
      rw [hset, Bool.or_eq_true] at hw
      rcases hw with hscr | hmask
      · exact hl c (hword c hscr)
      · exact hm c hmask
    · intro c hc
      rw [hset, Bool.or_eq_true]
      rcases hc with hc | hc
      · exact .inl (hpend c hc)
      · exact .inr hc

/-- Writing pending commands back keeps what is kept: an update that was done begins anew, and
    takes the same register. -/
theorem kept_writeScr {d : PtpData} {w : BitVec 32} (h : d.Kept)
    (hw : d.pending .ttsaru = true → tst w PtpCmd.ttsaru.mask = true) :
    (d.writeScr w).Kept := by
  refine ⟨h.1, ?_⟩
  rcases h.2 with ⟨hpend, hnot⟩ | hforce
  · left
    exact ⟨hw hpend, by simp [PtpData.writeScr, hnot]⟩
  · exact .inr hforce

/-- Issuing an addend update while none is pending. -/
theorem kept_of_issue {d : PtpData} {w : BitVec 32} (h : d.Loaded)
    (hidle : d.pending .ttsaru = false) (hw : tst w PtpCmd.ttsaru.mask = true) :
    (d.writeScr w).Kept := by
  refine ⟨h, .inl ⟨hw, ?_⟩⟩
  simp [PtpData.writeScr, hidle]

/-- With nothing pending, what is kept is in force. -/
theorem inForce_of_kept {d : PtpData} (h : d.Kept) (hidle : d.pending .ttsaru = false) :
    d.inForce = d.want := by
  rcases h.2 with ⟨hpend, -⟩ | hforce
  · rw [hidle] at hpend
    simp at hpend
  · exact hforce

/-- A read-modify-write under `Kept`, whatever is pending. -/
theorem tracks_setBits_kept {m : BitVec 32} (hl : .tsstu ∉ l) (hsub : ∀ c ∈ l, c ∈ k)
    (hm : ∀ c : PtpCmd, tst m c.mask = true → c ∈ k)
    (hp : Tracks (PtpData.With k PtpData.Kept) p B) :
    Tracks (PtpData.With l PtpData.Kept) (.readScr :: .setScr m :: p) B :=
  tracks_setBits (stable_kept hl) (fun _ h => h) hsub hm
    (fun _ _ _ hk hw => kept_writeScr hk fun hpend => hw _ (.inl hpend)) hp

/-- The addend update at the end of a function: the addend is written, and so is `TTSARU`. -/
theorem tracks_issueAddend (hp : Tracks (PtpData.With [.ttsaru] PtpData.Kept) p B) :
    Tracks (PtpData.With [] PtpData.Loaded)
      (.readScr :: .setScr ETH_PTPTSCR_TTSARU :: p) B := by
  refine tracks_setBits (stable_loaded (by simp)) (fun _ h => h) (by simp) ?_ ?_ hp
  · intro c hc
    cases c with
    | tssti => exact absurd hc (by decide)
    | tsstu => exact absurd hc (by decide)
    | ttsaru => exact List.mem_singleton.mpr rfl
  · intro d w hl hload hw
    exact kept_of_issue hload (hl.idle (by simp)) (hw _ (.inr (by decide)))

end Rules

/-! ## The outlines -/

/-- What holds between calls. -/
abbrev PtpData.Idle : PtpData → Prop := PtpData.With [.ttsaru] PtpData.Kept

theorem stable_idle : Stable (fun e (d : PtpData) => d.mac e) PtpData.Idle :=
  stable_kept (by simp)

/-- `TSSTI` is issued and waited for, whatever addend update is pending beside it. -/
theorem tracks_initTime {l : List PtpCmd} (hu : .tsstu ∉ l) (hl : ∀ c ∈ l, c = .ttsaru) :
    Tracks (PtpData.With l PtpData.Kept)
      [.readScr, .setScr ETH_PTPTSCR_TSSTI, .wait ETH_PTPTSCR_TSSTI] PtpData.Idle := by
  refine tracks_setBits_kept (k := .tssti :: l) hu (fun c hc => List.mem_cons_of_mem _ hc) ?_ ?_
  · intro c hc
    cases c with
    | tssti => exact List.mem_cons_self
    | tsstu => exact absurd hc (by decide)
    | ttsaru => exact absurd hc (by decide)
  · refine tracks_wait (k := l) (Y := PtpData.Kept) (stable_kept (by simp [hu]))
      (fun _ h => h) ?_ (fun _ _ h => h) (.nil (stable_kept hu) ?_)
    · intro c hc hwait
      rcases List.mem_cons.mp hc with rfl | hc
      · exact absurd hwait (by decide)
      · exact hc
    · intro d ⟨hd, hk⟩
      exact ⟨fun c hc => List.mem_singleton.mpr (hl c (hd c hc)), hk⟩

theorem tracks_portPTPSetTime (t : PtpTime) :
    Tracks PtpData.Idle (PtpFn.portPTPSetTime t).body PtpData.Idle := by
  refine tracks_writeTime stable_idle ?_ (tracks_initTime (by simp) (by simp))
  intro d r hscr hsar hk
  simpa only [PtpData.Kept, PtpData.Loaded, PtpData.pending, hscr, hsar] using hk

theorem tracks_portPTPUpdateFine (adj : BitVec 32) :
    Tracks PtpData.Idle (PtpFn.portPTPUpdateFine adj).body PtpData.Idle := by
  apply tracks_addend stable_idle
  refine tracks_wait (k := []) (Y := PtpData.Loaded) (stable_loaded (by simp)) (fun _ h => h) ?_
    (fun _ _ h => h) ?_
  · intro c hc hwait
    rw [List.mem_singleton] at hc
    subst hc
    exact absurd hwait (by decide)
  · exact tracks_issueAddend (.nil stable_idle fun _ h => h)

/-- The addend is saved while an update may still be on its way, the step begins when nothing
    is, and what the step clears is written again. -/
theorem tracks_portPTPUpdateCoarse (t : PtpTime) :
    Tracks PtpData.Idle (PtpFn.portPTPUpdateCoarse t).body PtpData.Idle := by
  have hall : ∀ c : PtpCmd,
      tst (ETH_PTPTSCR_TSSTI ||| ETH_PTPTSCR_TSSTU ||| ETH_PTPTSCR_TTSARU) c.mask = true := by
    intro c
    cases c <;> decide
  have hsaved : Stable (fun e (d : PtpData) => d.mac e)
      (PtpData.With [.ttsaru] fun d => d.Kept ∧ d.addend = d.want) := by
    intro e d d' ⟨hl, hk, hadd⟩ hstep
    obtain ⟨hl', hk'⟩ := stable_idle e d d' ⟨hl, hk⟩ hstep
    obtain ⟨hw, ha⟩ := PtpData.want_of_mac hstep
    exact ⟨hl', hk', by rw [hw, ha]; exact hadd⟩
  -- u32_t addend = ETH_PTPTSAR;
  refine tracks_other (Y := fun d => d.Kept ∧ d.addend = d.want) stable_idle
    (fun d => ⟨rfl, fun _ => rfl⟩) (fun d _ hk => ⟨hk, hk.1⟩) ?_
  refine tracks_wait (k := []) (Y := PtpData.Saved) hsaved (fun _ h => h)
    (fun c _ hc => absurd hc (by simp [hall c])) ?_ ?_
  · intro d hl ⟨hk, hadd⟩
    exact ⟨inForce_of_kept hk (hl.idle (by simp)), hadd⟩
  apply tracks_writeTime (stable_saved (by simp)) (fun _ _ _ _ h => h)
  -- the step, during which ETH_PTPTSAR holds nothing that is relied on
  refine tracks_setBits (k := [.tsstu]) (Y := PtpData.Saved) (stable_saved (by simp))
    (fun _ h => h) (by simp) ?_ (fun _ _ _ h _ => h) ?_
  · intro c hc
    cases c with
    | tssti => exact absurd hc (by decide)
    | tsstu => exact List.mem_singleton.mpr rfl
    | ttsaru => exact absurd hc (by decide)
  refine tracks_wait (k := []) (Y := PtpData.Saved) (stable_saved (by simp)) (fun _ h => h) ?_
    (fun _ _ h => h) ?_
  · intro c hc hwait
    rw [List.mem_singleton] at hc
    subst hc
    exact absurd hwait (by decide)
  -- ETH_PTPTSAR = addend;
  refine tracks_other (Y := PtpData.Loaded) (stable_saved (by simp))
    (fun d => ⟨rfl, fun _ => rfl⟩) (fun d _ hs => hs.2) ?_
  exact tracks_issueAddend (.nil stable_idle fun _ h => h)

theorem stable_true (l : List PtpCmd) :
    Stable (fun e (d : PtpData) => d.mac e) (PtpData.With l fun _ => True) := by
  intro e d d' ⟨hl, _⟩ hstep
  exact ⟨stable_atMost l e d d' hl hstep, trivial⟩

theorem tracks_ptpInit :
    Tracks (PtpData.With [] fun _ => True) (PtpFn.ptpInit .PTP_UPDATE_FINE).body PtpData.Idle := by
  refine tracks_other (Y := fun _ => True) (stable_true []) (fun d => ⟨rfl, fun _ => rfl⟩)
    (fun _ _ _ => trivial) ?_
  refine tracks_setBits (k := []) (Y := fun _ => True) (stable_true []) (fun _ _ => trivial)
    (by simp) ?_ (fun _ _ _ _ _ => trivial) ?_
  · intro c hc
    cases c <;> exact absurd hc (by decide)
  refine tracks_other (Y := fun _ => True) (stable_true []) (fun d => ⟨rfl, fun _ => rfl⟩)
    (fun _ _ _ => trivial) ?_
  -- ETH_PTPTSAR = ADJ_FREQ_BASE_ADDEND;
  apply tracks_addend (stable_true [])
  apply tracks_issueAddend
  refine tracks_wait (k := []) (Y := PtpData.Kept) stable_idle (fun _ h => h) ?_
    (fun _ _ h => h) ?_
  · intro c hc hwait
    rw [List.mem_singleton] at hc
    subst hc
    exact absurd hwait (by decide)
  refine tracks_setBits_kept (k := []) (by simp) (by simp) ?_ ?_
  · intro c hc
    cases c <;> exact absurd hc (by decide)
  refine tracks_other (Y := PtpData.Kept) (stable_kept (by simp)) (fun d => ⟨rfl, fun _ => rfl⟩)
    (fun _ _ h => h) ?_
  refine tracks_other (Y := PtpData.Kept) (stable_kept (by simp)) (fun d => ⟨rfl, fun _ => rfl⟩)
    (fun _ _ h => h) ?_
  exact tracks_initTime (by simp) (by simp)

theorem tracks_body (fn : PtpFn) (h : fn.isPort = true) :
    Tracks PtpData.Idle fn.body PtpData.Idle := by
  cases fn with
  | ptpInit mode => simp [PtpFn.isPort] at h
  | portPTPSetTime t => exact tracks_portPTPSetTime t
  | portPTPUpdateCoarse t => exact tracks_portPTPUpdateCoarse t
  | portPTPUpdateFine adj => exact tracks_portPTPUpdateFine adj

/-! ## Which addend it is -/

/-- The addend the calls of a run computed last, and `ptp_init`'s where there was none. -/
def lastAddend (as : List PtpAct) : BitVec 32 :=
  as.foldl (fun addend a =>
    match a with
    | .call (.portPTPUpdateFine adj) => updateFineAddend adj
    | _ => addend) ptpInitAddend

/-- The addends that are still to be written. -/
def addendsLeft (p : List PtpStmt) : List (BitVec 32) :=
  p.filterMap fun st => match st with
    | .writeAddend v => some v
    | _ => none

/-- The last addend has been written, or it is the one that the running call will write. -/
def Wanted (as : List PtpAct) (s : PtpSys) : Prop :=
  match s.running with
  | none => s.data.want = lastAddend as
  | some (_, p) =>
      (addendsLeft p = [] ∧ s.data.want = lastAddend as) ∨ addendsLeft p = [lastAddend as]

theorem lastAddend_snoc (as : List PtpAct) (a : PtpAct) :
    lastAddend (as ++ [a]) =
      match a with
      | .call (.portPTPUpdateFine adj) => updateFineAddend adj
      | _ => lastAddend as := by
  simp only [lastAddend, List.foldl_append, List.foldl_cons, List.foldl_nil]

/-- A statement writes the addend it was to write, and no other writes one. -/
theorem want_of_run (st : PtpStmt) (d : PtpData) (p : List PtpStmt) :
    (addendsLeft (st :: p) = (st.run d).1.want :: addendsLeft p ∧ (st.run d).2 = true) ∨
      (addendsLeft (st :: p) = addendsLeft p ∧ (st.run d).1.want = d.want) := by
  cases st with
  | writeAddend v => exact .inl ⟨rfl, rfl⟩
  | maskTrigger | setIncrement | clearHigh | clearLow | writeSign t | writeSec t
  | writeSubsec t | saveAddend | restoreAddend | readScr | setScr m | clearScr m | wait m =>
    exact .inr ⟨rfl, rfl⟩

theorem addendsLeft_body (fn : PtpFn) (h : fn.isPort = true) (as : List PtpAct) :
    (addendsLeft fn.body = [] ∧ lastAddend (as ++ [.call fn]) = lastAddend as) ∨
      addendsLeft fn.body = [lastAddend (as ++ [.call fn])] := by
  rw [lastAddend_snoc]
  cases fn with
  | ptpInit mode => simp [PtpFn.isPort] at h
  | portPTPSetTime t => exact .inl ⟨rfl, rfl⟩
  | portPTPUpdateCoarse t => exact .inl ⟨rfl, rfl⟩
  | portPTPUpdateFine adj => exact .inr rfl

theorem wanted_step {as : List PtpAct} {s t : PtpSys} {a : PtpAct} (h : Wanted as s)
    (hstep : ptpStep s a = some t) : Wanted (as ++ [a]) t := by
  obtain ⟨d, running⟩ := s
  cases a with
  | call fn =>
    simp only [ptpStep, Outline.step] at hstep
    split at hstep
    next hcall =>
      rw [Bool.and_eq_true, Option.isNone_iff_eq_none] at hcall
      obtain ⟨rfl, hport⟩ := hcall
      cases hstep
      rcases addendsLeft_body fn hport as with ⟨hnone, hlast⟩ | hone
      · exact .inl ⟨hnone, hlast ▸ h⟩
      · exact .inr hone
    next => simp at hstep
  | env e =>
    obtain ⟨d', hd', rfl⟩ := Option.map_eq_some_iff.mp hstep
    have hwant := (PtpData.want_of_mac hd').1
    cases running with
    | none =>
      simp only [Wanted, lastAddend_snoc] at h ⊢
      rw [hwant]
      exact h
    | some kp =>
      simp only [Wanted, lastAddend_snoc] at h ⊢
      rw [hwant]
      exact h
  | cpu =>
    cases running with
    | none => simp [ptpStep, Outline.step] at hstep
    | some kp =>
      obtain ⟨fn, p⟩ := kp
      cases p with
      | nil =>
        cases hstep
        simp only [Wanted, lastAddend_snoc] at h ⊢
        rcases h with ⟨-, hwant⟩ | hleft
        · exact hwant
        · simp [addendsLeft] at hleft
      | cons st p =>
        cases hstep
        simp only [Wanted, lastAddend_snoc] at h ⊢
        rcases want_of_run st d p with ⟨hleft, hover⟩ | ⟨hleft, hwant⟩
        · rw [hleft] at h
          rw [if_pos hover]
          rcases h with ⟨hnil, -⟩ | hone
          · simp at hnil
          · obtain ⟨hval, hrest⟩ := List.cons.inj hone
            exact .inl ⟨hrest, hval⟩
        · rw [hleft] at h
          rw [hwant]
          split
          · exact h
          · rw [hleft]
            exact h

/-! ## No correction is lost -/

/-- **Whenever no command is pending between calls**, `ETH_PTPTSAR` and the addend in force are
    both the one that was computed last. -/
theorem addend_never_lost {as : List PtpAct} {s : PtpSys}
    (hrun : exec ptpStep (PtpSys.init .PTP_UPDATE_FINE) as = some s)
    (hidle : s.running = none) (hdone : ∀ c, s.data.pending c = false) :
    s.data.regs.ETH_PTPTSAR = lastAddend as ∧ s.data.inForce = lastAddend as := by
  have hinit : Outlined PtpStmt.run (fun e d => d.mac e) (fun _ _ _ => True) (fun _ _ _ => True)
      PtpData.Idle (PtpSys.init .PTP_UPDATE_FINE) := by
    refine ⟨PtpData.With [] fun _ => True, tracks_ptpInit, ?_, trivial⟩
    exact atMost_reset
  have hkept : s.data.Kept := by
    have hinv := exec_invariant (I := Outlined PtpStmt.run (fun e d => d.mac e) (fun _ _ _ => True)
      (fun _ _ _ => True) PtpData.Idle) hinit
      (fun u a v hu hstep => (inv_step stable_idle tracks_body hu (atStmt_true u a) hstep).2) hrun
    simp only [Outlined, hidle] at hinv
    exact hinv.2
  have hwanted : Wanted as s := by
    refine exec_history (P := Wanted) ?_
      (fun as u a v _ ih hstep => wanted_step ih hstep) hrun
    exact .inr rfl
  simp only [Wanted, hidle] at hwanted
  rw [← hwanted]
  exact ⟨hkept.1, inForce_of_kept hkept (hdone .ttsaru)⟩

/-- A coarse step begun while the addend of the call before is still pending. -/
def coarseRun : List PtpAct :=
  ptpBoot ++ [.call (.portPTPUpdateFine 1000#32)] ++ List.replicate 5 .cpu ++
    [.call (.portPTPUpdateCoarse { tv_sec := 1#32, tv_nsec := 0#32 }), .cpu,
     .env .latch, .env (.complete .ttsaru)] ++
    List.replicate 6 .cpu ++ [.env (.complete .tsstu)] ++ List.replicate 5 .cpu ++
    [.env .latch, .env (.complete .ttsaru)]

theorem addend_never_lost_coarse :
    ∃ s, exec ptpStep (PtpSys.init .PTP_UPDATE_FINE) coarseRun = some s ∧
      s.data.regs.ETH_PTPTSAR = updateFineAddend 1000#32 ∧
      s.data.inForce = updateFineAddend 1000#32 := by
  refine exists_exec (fun s => s.running.isNone && (!s.data.pending .tssti &&
    (!s.data.pending .tsstu && !s.data.pending .ttsaru))) (by decide +kernel) fun s hrun hp => ?_
  simp only [Bool.and_eq_true, Bool.not_eq_true', Option.isNone_iff_eq_none] at hp
  obtain ⟨hidle, hi, hu, ha⟩ := hp
  apply addend_never_lost hrun hidle
  intro c
  cases c with
  | tssti => exact hi
  | tsstu => exact hu
  | ttsaru => exact ha

end EthernetIf
