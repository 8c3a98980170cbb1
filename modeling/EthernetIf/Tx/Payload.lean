import EthernetIf.Tx.Invariant

/-!
# The bytes of a frame

A transmit descriptor holds the *address* of a payload, and the DMA reads the bytes behind it
when it gets there — after `ethernetif_output` has returned, as a rule. The driver keeps the
pbuf with a reference, and copies nothing. So what goes on the wire is what the memory holds
when it is read, and of what the caller does after the call one thing matters:

> a write changes the frame exactly where it hits a payload byte that the DMA has still to
> read.

The machine is the transmit machine with a memory beside it. The DMA may read the next byte of
any descriptor it owns at any moment, that of a later frame included, and closes a descriptor
only when it has all of it; anyone may write any byte at any moment.
-/

namespace EthernetIf

open Lts Ring

/-- A byte address. -/
abbrev Addr := BitVec 32

def ETH_TDES1_TBS1 : BitVec 32 := 0x1fff#32

variable {P : Type}

/-- How many bytes the DMA reads of an entry. -/
def TxEntry.size (e : TxEntry Addr) : Nat := (e.len &&& ETH_TDES1_TBS1).toNat

/-- How many of a pbuf. -/
def Pbuf.size (q : Pbuf P Addr) : Nat := (q.len.zeroExtend 32 &&& ETH_TDES1_TBS1).toNat

/-! ## The machine -/

/-- The transmit machine, the memory, and what the DMA has read so far of each entry: `got k`
    belongs to the `k`-th entry handed over since boot. -/
structure PayState (P : Type) where
  tx : TxState P Addr
  mem : Addr → BitVec 8
  got : Nat → List (BitVec 8)

inductive PayAct (P : Type)
  | tx (a : TxAct P Addr)
  | fetch (j : Nat)                     -- the DMA reads a byte, `j` descriptors ahead
  | write (loc : Addr) (v : BitVec 8)   -- somebody writes a byte

/-- The descriptor `j` links ahead of the DMA. -/
def TxState.ahead {A : Type} (s : TxState P A) (j : Nat) : DmaDesc P A :=
  s.ring ((fun i => (s.ring i).Buffer2NextDescAddr)^[j] s.pos)

namespace PayState

def init (N : Nat) (mem : Addr → BitVec 8) : PayState P :=
  { tx := TxState.init P Addr N, mem := mem, got := fun _ => [] }

/-- The DMA reads the next byte of a descriptor it owns. -/
def fetch (N : Nat) (s : PayState P) (j : Nat) : Option (PayState P) :=
  let d := s.tx.ahead j
  let k := s.tx.wire.length + j
  if j < N ∧ d.own = true ∧ (s.got k).length < d.entry.size then
    d.entry.payload.map fun a =>
      { s with
        got := Function.update s.got k
          (s.got k ++ [s.mem (a + BitVec.ofNat 32 (s.got k).length)]) }
  else none

/-- The DMA has read all of the descriptor it is at, where it is at one it owns. -/
def Complete (s : PayState P) : Prop :=
  (s.tx.ring s.tx.pos).own = true →
    (s.got s.tx.wire.length).length = (s.tx.ring s.tx.pos).entry.size

instance (s : PayState P) : Decidable s.Complete := inferInstanceAs (Decidable (_ → _))

end PayState

def payStep [DecidableEq P] (N : Nat) (s : PayState P) : PayAct P → Option (PayState P)
  | .tx (.dma wb) =>
      if s.Complete then (txStep s.tx (.dma wb)).map fun tx => { s with tx := tx } else none
  | .tx a => (txStep s.tx a).map fun tx => { s with tx := tx }
  | .fetch j => s.fetch N j
  | .write loc v => some { s with mem := Function.update s.mem loc v }

variable [DecidableEq P]

theorem payStep_tx {N : Nat} {s t : PayState P} {a : TxAct P Addr}
    (h : payStep N s (.tx a) = some t) :
    ∃ tx, txStep s.tx a = some tx ∧ t = { s with tx := tx } := by
  cases a with
  | dma wb =>
    obtain ⟨-, h⟩ := Option.ite_none_right_eq_some.mp h
    obtain ⟨tx, htx, rfl⟩ := Option.map_eq_some_iff.mp h
    exact ⟨tx, htx, rfl⟩
  | output p =>
    obtain ⟨tx, htx, rfl⟩ := Option.map_eq_some_iff.mp h
    exact ⟨tx, htx, rfl⟩
  | cpu =>
    obtain ⟨tx, htx, rfl⟩ := Option.map_eq_some_iff.mp h
    exact ⟨tx, htx, rfl⟩

/-- A step of the machine is a step of the transmit machine, or leaves it alone. -/
theorem payStep_project {N : Nat} {s t : PayState P} {act : PayAct P}
    (h : payStep N s act = some t) : t.tx = s.tx ∨ ∃ a, txStep s.tx a = some t.tx := by
  cases act with
  | tx a =>
    obtain ⟨tx, htx, rfl⟩ := payStep_tx h
    exact .inr ⟨a, htx⟩
  | fetch j =>
    obtain ⟨-, h⟩ := Option.ite_none_right_eq_some.mp h
    obtain ⟨a, -, rfl⟩ := Option.map_eq_some_iff.mp h
    exact .inl rfl
  | write loc v =>
    cases h
    exact .inl rfl

theorem txInv_payStep {N : Nat} (hN : 0 < N) {s t : PayState P} {act : PayAct P}
    (h : TxInv N s.tx) (hstep : payStep N s act = some t) : TxInv N t.tx := by
  rcases payStep_project hstep with heq | ⟨a, ha⟩
  · rw [heq]
    exact h
  · exact txInv_step hN h ha

theorem txInv_payExec {N : Nat} (hN : 0 < N) {mem : Addr → BitVec 8} {as : List (PayAct P)}
    {s : PayState P} (h : exec (payStep N) (.init N mem) as = some s) : TxInv N s.tx :=
  exec_invariant (I := fun s => TxInv N s.tx) (TxInv.init hN)
    (fun _ _ _ hinv hstep => txInv_payStep hN hinv hstep) h

/-! ## Which entry a descriptor holds -/

omit [DecidableEq P] in
/-- Following the links is counting modulo the ring. -/
theorem Linked.iterate {A : Type} {N : Nat} (hN : 0 < N) {ring : Nat → DmaDesc P A}
    (h : Linked N ring) (a j : Nat) :
    (fun i => (ring i).Buffer2NextDescAddr)^[j] (a % N) = (a + j) % N := by
  induction j with
  | zero => rfl
  | succ j ih =>
    rw [Function.iterate_succ_apply', ih, h _ (Nat.mod_lt _ hN), succ_mod]
    rfl

omit [DecidableEq P] in
/-- A descriptor less than a turn ahead that the DMA owns holds its entry. -/
theorem TxRing.ahead {N : Nat} (hN : 0 < N) {s : TxState P Addr} (h : TxRing N s) {j : Nat}
    (hj : j < N) (hown : (s.ahead j).own = true) :
    (entriesOf s.sent)[s.wire.length + j]? = some (s.ahead j).entry := by
  have hslot : s.ahead j = s.ring ((s.wire.length + j) % N) := by
    rw [TxState.ahead, h.pos, h.link.iterate hN]
  rw [hslot] at hown ⊢
  rcases Nat.lt_or_ge (s.wire.length + j) s.queued with hlt | hge
  · exact (h.fly _ (Nat.le_add_right _ _) hlt).2
  · have hidle := h.idle _ hge (Nat.add_lt_add_left hj _)
    exact absurd (hown.symm.trans hidle) (by simp)

omit [DecidableEq P] in
theorem PbufChain.frags_get (p : PbufChain P Addr) (j : Fin p.frags.length) :
    p.frags[j.val]? = some (p.frags.get j) := List.getElem?_eq_getElem j.isLt

omit [DecidableEq P] in
/-- The entries of a chain come after those of the chains submitted before it, whatever has been
    submitted since. -/
theorem entriesOf_frag (pre post : List (PbufChain P Addr)) {p : PbufChain P Addr} {j : Nat}
    {q : Pbuf P Addr} (hq : p.frags[j]? = some q) :
    ∃ e, (entriesOf (pre ++ p :: post))[(entriesOf pre).length + j]? = some e ∧
      e.payload = some q.payload ∧ e.size = q.size := by
  have hsplit : entriesOf (pre ++ p :: post) = entriesOf pre ++ (p.entries ++ entriesOf post) := by
    simp only [entriesOf, List.flatMap_append, List.flatMap_cons]
  obtain ⟨hlt, -⟩ := List.getElem?_eq_some_iff.mp hq
  rw [hsplit, List.getElem?_append_right (Nat.le_add_right _ _), Nat.add_sub_cancel_left,
    List.getElem?_append_left (by rwa [PbufChain.entries, List.length_mapIdx]),
    PbufChain.entries, List.getElem?_mapIdx, hq]
  exact ⟨_, rfl, rfl, rfl⟩

/-- What has been submitted stays where it is. -/
theorem entries_txStep {A : Type} {s t : TxState P A} {a : TxAct P A} {k : Nat} {e : TxEntry A}
    (hstep : txStep s a = some t) (he : (entriesOf s.sent)[k]? = some e) :
    (entriesOf t.sent)[k]? = some e := by
  cases a with
  | output p =>
    obtain ⟨-, rfl⟩ := txStep_output hstep
    obtain ⟨hlt, -⟩ := List.getElem?_eq_some_iff.mp he
    rw [entriesOf_snoc, List.getElem?_append_left hlt]
    exact he
  | cpu =>
    rw [sent_ethernetifOutput hstep]
    exact he
  | dma wb =>
    rw [sent_dma hstep]
    exact he

theorem entries_payStep {N k : Nat} {s t : PayState P} {act : PayAct P} {e : TxEntry Addr}
    (hstep : payStep N s act = some t) (he : (entriesOf s.tx.sent)[k]? = some e) :
    (entriesOf t.tx.sent)[k]? = some e := by
  rcases payStep_project hstep with htx | ⟨a, htx⟩
  · rw [htx]
    exact he
  · exact entries_txStep htx he

/-! ## What will be read -/

/-- Byte `i` of the entry `k`, whose payload is at `a`: the byte that was read, or the one that
    is there to be read. -/
def PayState.willRead (s : PayState P) (a : Addr) (k i : Nat) : BitVec 8 :=
  (s.got k)[i]?.getD (s.mem (a + BitVec.ofNat 32 i))

omit [DecidableEq P] in
theorem PayState.willRead_of_got {s : PayState P} {a : Addr} {k i : Nat} {b : BitVec 8}
    (h : (s.got k)[i]? = some b) : s.willRead a k i = b := by
  rw [PayState.willRead, h]
  rfl

omit [DecidableEq P] in
/-- A read takes the byte that was there to be read, and no other. -/
theorem PayState.willRead_fetch {N : Nat} (hN : 0 < N) {s t : PayState P} (h : TxRing N s.tx)
    {j k i : Nat} {e : TxEntry Addr} {a : Addr} (he : (entriesOf s.tx.sent)[k]? = some e)
    (ha : e.payload = some a) (hstep : s.fetch N j = some t) :
    t.willRead a k i = s.willRead a k i := by
  obtain ⟨⟨hj, hown, -⟩, heq⟩ := Option.ite_none_right_eq_some.mp hstep
  obtain ⟨a', ha', rfl⟩ := Option.map_eq_some_iff.mp heq
  by_cases hk : k = s.tx.wire.length + j
  · subst hk
    rw [h.ahead hN hj hown, Option.some.injEq] at he
    rw [he, ha, Option.some.injEq] at ha'
    subst ha'
    simp only [PayState.willRead, Function.update_self]
    rcases Nat.lt_trichotomy i (s.got (s.tx.wire.length + j)).length with hlt | hi | hgt
    · rw [List.getElem?_append_left hlt]
    · rw [hi, List.getElem?_concat_length, List.getElem?_eq_none (Nat.le_refl _)]
      rfl
    · have hgt' : ∀ b, (s.got (s.tx.wire.length + j) ++ [b]).length ≤ i := by
        intro b
        rw [List.length_append]
        exact hgt
      rw [List.getElem?_eq_none (hgt' _), List.getElem?_eq_none (Nat.le_of_lt hgt)]
  · simp only [PayState.willRead, Function.update_of_ne hk]

/-- `loc` is byte `i` of the payload at `a`, and has still to be read. -/
def PayState.UnreadAt (s : PayState P) (a : Addr) (k i : Nat) (loc : Addr) : Prop :=
  (s.got k).length ≤ i ∧ loc = a + BitVec.ofNat 32 i

instance (s : PayState P) (a : Addr) (k i : Nat) (loc : Addr) :
    Decidable (s.UnreadAt a k i loc) := inferInstanceAs (Decidable (_ ∧ _))

/-- A step that does not write this byte before the DMA has read it. -/
def SparesByte (a : Addr) (k i : Nat) (s : PayState P) : PayAct P → Prop
  | .write loc _ => ¬ s.UnreadAt a k i loc
  | .tx _ | .fetch _ => True

instance (a : Addr) (k i : Nat) (s : PayState P) (act : PayAct P) :
    Decidable (SparesByte a k i s act) := by
  unfold SparesByte
  split <;> infer_instance

/-- **One step** changes what will be read only by a write that hits it. -/
theorem willRead_step {N : Nat} (hN : 0 < N) {s t : PayState P} {act : PayAct P}
    (h : TxRing N s.tx) {k i : Nat} {e : TxEntry Addr} {a : Addr}
    (he : (entriesOf s.tx.sent)[k]? = some e) (ha : e.payload = some a)
    (hspare : SparesByte a k i s act) (hstep : payStep N s act = some t) :
    t.willRead a k i = s.willRead a k i := by
  cases act with
  | tx b =>
    obtain ⟨tx, -, rfl⟩ := payStep_tx hstep
    rfl
  | fetch j => exact PayState.willRead_fetch hN h he ha hstep
  | write loc v =>
    cases hstep
    rcases Nat.lt_or_ge i (s.got k).length with hread | hunread
    · simp only [PayState.willRead, List.getElem?_eq_getElem hread, Option.getD_some]
    · have hne : a + BitVec.ofNat 32 i ≠ loc := by
        intro heq
        exact hspare ⟨hunread, heq.symm⟩
      simp only [PayState.willRead, Function.update_of_ne hne]

omit [DecidableEq P] in
/-- A write that hits it decides what will be read. -/
theorem PayState.willRead_write {s : PayState P} {a loc : Addr} {k i : Nat}
    (h : s.UnreadAt a k i loc) (v : BitVec 8) :
    { s with mem := Function.update s.mem loc v }.willRead a k i = v := by
  obtain ⟨hunread, rfl⟩ := h
  simp only [PayState.willRead, List.getElem?_eq_none hunread, Option.getD_none,
    Function.update_self]

/-- **One run**: a byte that has been submitted is read as it was at the start, if no write
    hits it. -/
theorem willRead_exec {N : Nat} (hN : 0 < N) {s t : PayState P} (h : TxInv N s.tx) {k i : Nat}
    {e : TxEntry Addr} {a : Addr} (he : (entriesOf s.tx.sent)[k]? = some e)
    (ha : e.payload = some a) {bs : List (PayAct P)}
    (hspare : OnRun (payStep N) (SparesByte a k i) s bs)
    (hrun : exec (payStep N) s bs = some t) : t.willRead a k i = s.willRead a k i := by
  refine (hspare.invariant (I := fun t => TxInv N t.tx ∧
    (entriesOf t.tx.sent)[k]? = some e ∧ t.willRead a k i = s.willRead a k i)
    ⟨h, he, rfl⟩ ?_ hrun).2.2
  rintro u act v ⟨hinv, hentry, heq⟩ hact hstep
  exact ⟨txInv_payStep hN hinv hstep, entries_payStep hstep hentry,
    (willRead_step hN hinv.ring hentry ha hact hstep).trans heq⟩

/-! ## What has been read -/

/-- The DMA has all the bytes of every entry on the wire. -/
def PayState.WireRead (s : PayState P) : Prop :=
  ∀ k e, s.tx.wire[k]? = some e → (s.got k).length = e.size

/-- What a step of the transmit machine puts on the wire: nothing, or the descriptor the DMA is
    at, which it owns. -/
theorem wire_txStep {A : Type} {s t : TxState P A} {a : TxAct P A}
    (hstep : txStep s a = some t) :
    t.wire = s.wire ∨ ((∃ wb, a = .dma wb) ∧ (s.ring s.pos).own = true ∧
      t.wire = s.wire ++ [(s.ring s.pos).entry]) := by
  cases a with
  | output p =>
    obtain ⟨-, rfl⟩ := txStep_output hstep
    exact .inl rfl
  | cpu =>
    obtain ⟨c, -, ⟨-, rfl⟩ | ⟨f, q, -, -, rfl⟩ | ⟨-, -, rfl⟩ | ⟨-, -, rfl⟩ | ⟨-, rfl⟩ | ⟨-, rfl⟩⟩ :=
      ethernetifOutput_cases hstep
    · exact .inl rfl
    · exact .inl (processTxDescr_cases _ _ _ _).2.2.2.1
    · exact .inl rfl
    · exact .inl rfl
    · exact .inl rfl
    · exact .inl rfl
  | dma wb =>
    obtain ⟨-, ⟨hown, rfl⟩ | ⟨-, rfl⟩⟩ := txDma_cases hstep
    · exact .inr ⟨⟨wb, rfl⟩, hown, rfl⟩
    · exact .inl rfl

theorem PayState.WireRead.step {N : Nat} {s t : PayState P} {act : PayAct P} (h : s.WireRead)
    (hstep : payStep N s act = some t) : t.WireRead := by
  intro k e hk
  cases act with
  | tx a =>
    obtain ⟨tx, htx, rfl⟩ := payStep_tx hstep
    rcases wire_txStep htx with hwire | ⟨⟨wb, rfl⟩, hown, hwire⟩
    · rw [hwire] at hk
      exact h k e hk
    · -- the DMA closes a descriptor of its own only when it has all of it
      obtain ⟨hcomplete, -⟩ := Option.ite_none_right_eq_some.mp hstep
      rw [hwire] at hk
      rcases Nat.lt_trichotomy k s.tx.wire.length with hlt | rfl | hgt
      · rw [List.getElem?_append_left hlt] at hk
        exact h k e hk
      · rw [List.getElem?_concat_length] at hk
        obtain rfl := Option.some.inj hk
        exact hcomplete hown
      · have hout : (s.tx.wire ++ [(s.tx.ring s.tx.pos).entry]).length ≤ k := by
          rw [List.length_append]
          exact hgt
        rw [List.getElem?_eq_none hout] at hk
        cases hk
  | fetch j =>
    obtain ⟨-, heq⟩ := Option.ite_none_right_eq_some.mp hstep
    obtain ⟨a, -, rfl⟩ := Option.map_eq_some_iff.mp heq
    have hne : k ≠ s.tx.wire.length + j := by
      obtain ⟨hlt, -⟩ := List.getElem?_eq_some_iff.mp hk
      exact Nat.ne_of_lt (Nat.lt_of_lt_of_le hlt (Nat.le_add_right _ _))
    dsimp only
    rw [Function.update_of_ne hne]
    exact h k e hk
  | write loc v =>
    cases hstep
    exact h k e hk

omit [DecidableEq P] in
/-- An entry the DMA has given back was read to its end. -/
theorem PayState.WireRead.got_length {N : Nat} {s : PayState P} (h : s.WireRead)
    (hring : TxRing N s.tx) {k : Nat} {e : TxEntry Addr}
    (he : (entriesOf s.tx.sent)[k]? = some e) (hk : k < s.tx.wire.length) :
    (s.got k).length = e.size := by
  apply h
  rw [hring.wire_eq, List.getElem?_take_of_lt hk]
  exact he

/-- What was submitted stays where it is, in a whole run. -/
theorem entries_payExec {N k : Nat} {s t : PayState P} {bs : List (PayAct P)} {e : TxEntry Addr}
    (hrun : exec (payStep N) s bs = some t) (he : (entriesOf s.tx.sent)[k]? = some e) :
    (entriesOf t.tx.sent)[k]? = some e :=
  exec_invariant (I := fun t => (entriesOf t.tx.sent)[k]? = some e) he
    (fun _ _ _ he hs => entries_payStep hs he) hrun

/-- A byte of an entry that is back was read, and is the one that was there to be read. -/
theorem PayState.got_of_closed {N : Nat} (hN : 0 < N) {mem : Addr → BitVec 8}
    {as : List (PayAct P)} {t : PayState P} (hrun : exec (payStep N) (.init N mem) as = some t)
    {k i : Nat} {e : TxEntry Addr} (he : (entriesOf t.tx.sent)[k]? = some e) (hi : i < e.size)
    (hclosed : k < t.tx.wire.length) (a : Addr) : (t.got k)[i]? = some (t.willRead a k i) := by
  have hwire : t.WireRead := exec_invariant (I := PayState.WireRead)
    (fun k e hk => by cases hk) (fun _ _ _ h hs => h.step hs) hrun
  have hlen := hwire.got_length (txInv_payExec hN hrun).ring he hclosed
  rw [← hlen] at hi
  rw [PayState.willRead, List.getElem?_eq_getElem hi]
  rfl

/-! ## Every run -/

/-- `loc` is a payload byte of the frame `p` that the DMA has still to read; the entries of the
    frame start at `base`. -/
def PayState.Unread (s : PayState P) (base : Nat) (p : PbufChain P Addr) (loc : Addr) : Prop :=
  ∃ j : Fin p.frags.length, ∃ i : Fin (p.frags.get j).size,
    s.UnreadAt (p.frags.get j).payload (base + j) i loc

instance (s : PayState P) (base : Nat) (p : PbufChain P Addr) (loc : Addr) :
    Decidable (s.Unread base p loc) := by
  unfold PayState.Unread
  infer_instance

/-- A step that writes no payload byte of the frame before the DMA has read it. -/
def SparesUnread (base : Nat) (p : PbufChain P Addr) (s : PayState P) : PayAct P → Prop
  | .write loc _ => ¬ s.Unread base p loc
  | .tx _ | .fetch _ => True

instance (base : Nat) (p : PbufChain P Addr) (s : PayState P) (act : PayAct P) :
    Decidable (SparesUnread base p s act) := by
  unfold SparesUnread
  split <;> infer_instance

omit [DecidableEq P] in
/-- To spare the frame is to spare each of its bytes. -/
theorem SparesUnread.byte {base : Nat} {p : PbufChain P Addr} {s : PayState P} {act : PayAct P}
    (h : SparesUnread base p s act) (j : Fin p.frags.length) (i : Fin (p.frags.get j).size) :
    SparesByte (p.frags.get j).payload (base + j) i s act := by
  cases act with
  | tx a => trivial
  | fetch k => trivial
  | write loc v => exact fun hunread => h ⟨j, i, hunread⟩

/-- **What is on the wire is what the memory holds when the DMA gets there.** Of a frame that was
    submitted at any earlier moment, later ones behind it or not:

    * two runs that write none of its payload bytes before the DMA has read it read the same
      bytes of it, whatever else they write and whenever the DMA reads;
    * a write that does hit such a byte is read, if no further one hits it — the byte is what was
      written, and it has been read when the DMA gives the descriptor back. -/
theorem output_bytes_stable {N : Nat} (hN : 0 < N) {mem : Addr → BitVec 8}
    {as : List (PayAct P)} {s : PayState P} {pre post : List (PbufChain P Addr)}
    {p : PbufChain P Addr} (hrun : exec (payStep N) (.init N mem) as = some s)
    (hsent : s.tx.sent = pre ++ p :: post) :
    (∀ bs₁ bs₂ t₁ t₂, exec (payStep N) s bs₁ = some t₁ → exec (payStep N) s bs₂ = some t₂ →
      OnRun (payStep N) (SparesUnread (entriesOf pre).length p) s bs₁ →
      OnRun (payStep N) (SparesUnread (entriesOf pre).length p) s bs₂ →
      ∀ (j : Fin p.frags.length) (i : Fin (p.frags.get j).size) (b₁ b₂ : BitVec 8),
        (t₁.got ((entriesOf pre).length + j))[i.val]? = some b₁ →
        (t₂.got ((entriesOf pre).length + j))[i.val]? = some b₂ → b₁ = b₂) ∧
    ∀ (j : Fin p.frags.length) (i : Fin (p.frags.get j).size) (loc : Addr) (v : BitVec 8) u bs t,
      s.UnreadAt (p.frags.get j).payload ((entriesOf pre).length + j) i loc →
      payStep N s (.write loc v) = some u → exec (payStep N) u bs = some t →
      OnRun (payStep N) (SparesByte (p.frags.get j).payload ((entriesOf pre).length + j) i)
        u bs →
      (∀ b, (t.got ((entriesOf pre).length + j))[i.val]? = some b → b = v) ∧
        ((entriesOf pre).length + j < t.tx.wire.length →
          (t.got ((entriesOf pre).length + j))[i.val]? = some v) := by
  have hinv := txInv_payExec hN hrun
  constructor
  · intro bs₁ bs₂ t₁ t₂ h₁ h₂ hspare₁ hspare₂ j i b₁ b₂ hb₁ hb₂
    obtain ⟨e, he, ha, -⟩ := entriesOf_frag pre post (p.frags_get j)
    rw [← hsent] at he
    rw [← PayState.willRead_of_got (a := (p.frags.get j).payload) hb₁,
      ← PayState.willRead_of_got (a := (p.frags.get j).payload) hb₂,
      willRead_exec hN hinv he ha (hspare₁.mono fun _ _ h => h.byte j i) h₁,
      willRead_exec hN hinv he ha (hspare₂.mono fun _ _ h => h.byte j i) h₂]
  · intro j i loc v u bs t hunread hwrite h₁ hspare
    obtain ⟨e, he, ha, hsize⟩ := entriesOf_frag pre post (p.frags_get j)
    rw [← hsent] at he
    obtain rfl := Option.some.inj hwrite
    have hwill : t.willRead (p.frags.get j).payload ((entriesOf pre).length + j) i = v := by
      rw [willRead_exec (s := { s with mem := Function.update s.mem loc v }) hN hinv he ha hspare
        h₁]
      exact PayState.willRead_write hunread v
    constructor
    · intro b hb
      rw [← PayState.willRead_of_got (a := (p.frags.get j).payload) hb, hwill]
    · -- the descriptor is back, so the DMA has all of it, this byte included
      intro hclosed
      have hrun' := exec_trans (exec_trans hrun
        (show exec (payStep N) s [.write loc v] = some _ from rfl)) h₁
      rw [← hwill]
      exact PayState.got_of_closed hN hrun' (entries_payExec h₁ he) (by rw [hsize]; exact i.isLt)
        hclosed _

/-- A frame of one byte, in memory that its owner uses again. -/
def volatileByte : PbufChain Nat Addr :=
  { head := { addr := 0, payload := 0x100#32, tot_len := 1, len := 1 }, tail := [],
    nodup := by decide }

/-- Another one. -/
def secondByte : PbufChain Nat Addr :=
  { head := { addr := 1, payload := 0x200#32, tot_len := 1, len := 1 }, tail := [],
    nodup := by decide }

/-- `ethernetif_output` is called with the chain, and returns: the ring has room. -/
def sendByte (p : PbufChain Nat Addr) : List (PayAct Nat) :=
  .tx (.output p) :: List.replicate 14 (.tx .cpu)

/-- It has been sent, and `ethernetif_output` has returned. -/
def sentVolatile : PayState Nat :=
  (exec (payStep 1) (.init 1 fun _ => 0#8) (sendByte volatileByte)).get (by decide +kernel)

/-- Both have been sent, and the DMA has read nothing yet. -/
def sentBoth : PayState Nat :=
  (exec (payStep 2) (.init 2 fun _ => 0#8) (sendByte volatileByte ++ sendByte secondByte)).get
    (by decide +kernel)

/-- The byte is overwritten after the DMA has read it. -/
def reuseLate (v : BitVec 8) : List (PayAct Nat) :=
  [.fetch 0, .write 0x100#32 v, .tx (.dma 0#32)]

/-- The byte is overwritten before. -/
def reuseEarly (v : BitVec 8) : List (PayAct Nat) :=
  [.write 0x100#32 v, .fetch 0, .tx (.dma 0#32)]

/-- Both halves, for the first of two frames, after the second call has returned. -/
theorem output_bytes_stable_both :
    (∃ t₁, exec (payStep 2) sentBoth (reuseLate 1) = some t₁ ∧
      ∃ t₂, exec (payStep 2) sentBoth (reuseLate 2) = some t₂ ∧
        ∀ (j : Fin volatileByte.frags.length) (i : Fin (volatileByte.frags.get j).size)
          (b₁ b₂ : BitVec 8), (t₁.got (0 + j))[i.val]? = some b₁ →
            (t₂.got (0 + j))[i.val]? = some b₂ → b₁ = b₂) ∧
      ∃ u, payStep 2 sentBoth (.write 0x100#32 1) = some u ∧
        ∃ t, exec (payStep 2) u [.fetch 0, .tx (.dma 0#32)] = some t ∧ (t.got 0)[0]? = some 1 := by
  have hsent : sentBoth.tx.sent = [] ++ volatileByte :: [secondByte] := by decide +kernel
  have hrun : exec (payStep 2) (.init 2 fun _ => 0#8)
      (sendByte volatileByte ++ sendByte secondByte) = some sentBoth := (Option.some_get _).symm
  obtain ⟨hstable, hhit⟩ := output_bytes_stable (by decide) hrun hsent
  constructor
  · apply exists_exec (fun _ => true) (by decide +kernel)
    intro t₁ h₁ _
    apply exists_exec (fun _ => true) (by decide +kernel)
    intro t₂ h₂ _
    exact hstable _ _ _ _ h₁ h₂ (by decide +kernel) (by decide +kernel)
  · refine ⟨_, rfl, ?_⟩
    refine exists_exec (fun t => decide (0 < t.tx.wire.length)) (by decide +kernel) fun t h hp => ?_
    have hunread : sentBoth.UnreadAt 0x100#32 0 0 0x100#32 := by decide +kernel
    have hspare : OnRun (payStep 2) (SparesByte 0x100#32 0 0)
        { sentBoth with mem := Function.update sentBoth.mem 0x100#32 1 }
        [.fetch 0, .tx (.dma 0#32)] := by decide +kernel
    exact (hhit ⟨0, by decide⟩ ⟨0, by decide⟩ 0x100#32 1 _ _ t hunread rfl h hspare).2
      (of_decide_eq_true hp)

/-- Two runs that differ in one write after the return, and in what goes on the wire. -/
theorem output_bytes_overwritten :
    sentVolatile.tx.call.isNone = true ∧
      ∃ t₁, exec (payStep 1) sentVolatile (reuseEarly 1) = some t₁ ∧
        ∃ t₂, exec (payStep 1) sentVolatile (reuseEarly 2) = some t₂ ∧
          t₁.tx.wire.length = 1 ∧ t₂.tx.wire.length = 1 ∧ t₁.got 0 = [1] ∧ t₂.got 0 = [2] := by
  refine ⟨by decide +kernel, ?_⟩
  refine exists_exec (fun t => decide (t.tx.wire.length = 1 ∧ t.got 0 = [1]))
    (by decide +kernel) fun t₁ _ hp₁ => ?_
  refine exists_exec (fun t => decide (t.tx.wire.length = 1 ∧ t.got 0 = [2]))
    (by decide +kernel) fun t₂ _ hp₂ => ?_
  obtain ⟨hwire₁, hgot₁⟩ := of_decide_eq_true hp₁
  obtain ⟨hwire₂, hgot₂⟩ := of_decide_eq_true hp₂
  exact ⟨hwire₁, hwire₂, hgot₁, hgot₂⟩

end EthernetIf
