import EthernetIf.ZeroCopy.Model

/-!
# The books of the zero-copy path

`SysInv`: every reference a pbuf's count stands for is held by somebody one can name — lwIP, a
transmit descriptor, a receive descriptor, or a live pbuf linked to it — and a receive
descriptor's reference is the only one there is to its pbuf.

The library's laws say what each heap operation does to the books; what is left to show is
that each statement of the driver moves the reference of its descriptor at the same time
(`holds_txCpu`, `holds_rxCpu` and their neighbours).
-/

namespace EthernetIf

open Lts Ring RefCount

variable {P A : Type}

/-! ## How a statement moves the reference of its descriptor -/

theorem TxState.ptr_congr {s t : TxState P A} (h : ∀ i, (t.ring i).pbuf = (s.ring i).pbuf) :
    t.ptr = s.ptr := funext fun i => by rw [TxState.ptr, TxState.ptr, h i]

/-- Away from the two statements between `pbuf_free` and the store, a descriptor holds what
    it points to. -/
theorem TxState.holds_eq {s : TxState P A}
    (h : ∀ c, s.call = some c → c.stmt ≠ .frag .ref ∧ c.stmt ≠ .frag .setPbuf) :
    s.holds = s.ptr := by
  unfold TxState.holds
  split
  · rfl
  next c hcall =>
    obtain ⟨href, hset⟩ := h c hcall
    split
    next hstmt => exact absurd hstmt href
    next hstmt => exact absurd hstmt hset
    next => rfl

theorem TxState.holds_at {s : TxState P A} {c : TxCall P A} (hcall : s.call = some c)
    (href : c.stmt ≠ .frag .ref) (hset : c.stmt ≠ .frag .setPbuf) : s.holds = s.ptr := by
  apply TxState.holds_eq
  intro c' hc'
  obtain rfl := Option.some.inj (hcall.symm.trans hc')
  exact ⟨href, hset⟩

/-- Away from those two statements, a step that keeps the pointers moves no reference. -/
theorem TxState.holds_goto {s t : TxState P A} {c d : TxCall P A} {st : TxStmt}
    (hcall : s.call = some c) (href : c.stmt ≠ .frag .ref) (hset : c.stmt ≠ .frag .setPbuf)
    (h : ∀ i, (t.ring i).pbuf = (s.ring i).pbuf) (href' : st ≠ .frag .ref)
    (hset' : st ≠ .frag .setPbuf) : (t.goto d st).holds = s.holds := by
  rw [TxState.holds_at hcall href hset, TxState.holds_at (s := t.goto d st) rfl href' hset']
  exact TxState.ptr_congr h

section Tx

variable [DecidableEq P]

/-- `process_tx_descr`: `freeOld` gives the reference of the descriptor at the cursor up, `ref`
    puts one to the new fragment in its place, and no other statement moves any. -/
theorem holds_processTxDescr {s : TxState P A} {c : TxCall P A} {q : Pbuf P A} {f : FragStmt}
    (hcall : s.call = some c) (hstmt : c.stmt = .frag f) (hq : c.q = some q) :
    (f = .freeOld ∧ s.holds = s.ptr ∧
      (s.processTxDescr c q f).holds = Function.update s.ptr s.cur none) ∨
    (f = .ref ∧ s.holds = Function.update s.ptr s.cur none ∧
      (s.processTxDescr c q f).holds = Function.update s.ptr s.cur (some q.addr)) ∨
    (f ≠ .freeOld ∧ f ≠ .ref ∧ (s.processTxDescr c q f).holds = s.holds) := by
  cases f with
  | freeOld =>
    refine .inl ⟨rfl, TxState.holds_at hcall (by simp [hstmt]) (by simp [hstmt]), ?_⟩
    simp only [TxState.processTxDescr]
    split <;> rfl
  | ref =>
    refine .inr (.inl ⟨rfl, ?_, ?_⟩)
    · simp only [TxState.holds, hcall, hstmt]
    · show Function.update s.ptr s.cur (c.q.map Pbuf.addr) = _
      rw [hq]
      rfl
  | setPbuf =>
    refine .inr (.inr ⟨by simp, by simp, ?_⟩)
    have hold : s.holds = Function.update s.ptr s.cur (c.q.map Pbuf.addr) := by
      simp only [TxState.holds, hcall, hstmt]
    rw [hold, hq]
    funext i
    show (Function.update s.ring s.cur _ i).pbuf.map Pbuf.addr = _
    by_cases hi : i = s.cur
    · subst hi
      simp
    · simp [Function.update_of_ne hi, TxState.ptr]
  | wait =>
    refine .inr (.inr ⟨by simp, by simp, ?_⟩)
    simp only [TxState.processTxDescr]
    split
    · rfl
    · exact TxState.holds_goto hcall (by simp [hstmt]) (by simp [hstmt]) (fun _ => rfl)
        (by simp) (by simp)
  | clearFrame | setBuf | setSize | setOwn =>
    exact .inr (.inr ⟨by simp, by simp, TxState.holds_goto hcall (by simp [hstmt])
      (by simp [hstmt]) (update_pbuf rfl) (by simp) (by simp)⟩)
  | setFirst | setLast =>
    refine .inr (.inr ⟨by simp, by simp, ?_⟩)
    simp only [TxState.processTxDescr]
    split
    · exact TxState.holds_goto hcall (by simp [hstmt]) (by simp [hstmt]) (update_pbuf rfl)
        (by simp) (by simp)
    · exact TxState.holds_goto hcall (by simp [hstmt]) (by simp [hstmt]) (fun _ => rfl)
        (by simp) (by simp)
  | advance =>
    refine .inr (.inr ⟨by simp, by simp, ?_⟩)
    rw [TxState.holds_at hcall (by simp [hstmt]) (by simp [hstmt])]
    rfl

/-- **The transmit side**: the statements of `ethernetif_output` around `process_tx_descr` move
    no reference. -/
theorem holds_txCpu {s t : TxState P A} (hstep : s.ethernetifOutput = some t) :
    ∃ c, s.call = some c ∧ (∀ c', t.call = some c' → c'.p = c.p) ∧
      ((c.stmt = .frag .freeOld ∧ s.holds = s.ptr ∧
          t.holds = Function.update s.ptr s.cur none) ∨
        (∃ q, c.stmt = .frag .ref ∧ c.q = some q ∧
          s.holds = Function.update s.ptr s.cur none ∧
          t.holds = Function.update s.ptr s.cur (some q.addr)) ∨
        (c.stmt ≠ .frag .freeOld ∧ c.stmt ≠ .frag .ref ∧ t.holds = s.holds)) := by
  obtain ⟨c, hcall, hcases⟩ := ethernetifOutput_cases hstep
  -- a call that returns leaves every descriptor with what it points to
  have hreturn : ∀ {t : TxState P A}, c.stmt ≠ .frag .ref → c.stmt ≠ .frag .setPbuf →
      t.call = none → t.ring = s.ring → t.holds = s.holds := by
    intro t href hset ht hring
    rw [TxState.holds_at hcall href hset,
      TxState.holds_eq fun c' hc' => absurd (ht.symm.trans hc') (by simp)]
    exact TxState.ptr_congr fun i => by rw [hring]
  refine ⟨c, hcall, fun c' hc' => ?_, ?_⟩
  · rcases hcases with ⟨-, rfl⟩ | ⟨f, q, -, -, rfl⟩ | ⟨-, -, rfl⟩ | ⟨-, -, rfl⟩ | ⟨-, rfl⟩ |
      ⟨-, rfl⟩
    · obtain rfl := Option.some.inj hc'
      rfl
    · exact chain_processTxDescr hcall hc'
    · obtain rfl := Option.some.inj hc'
      rfl
    · exact absurd hc' (by simp)
    · obtain rfl := Option.some.inj hc'
      rfl
    · exact absurd hc' (by simp)
  · rcases hcases with ⟨hstmt, rfl⟩ | ⟨f, q, hstmt, hq, rfl⟩ | ⟨hstmt, -, rfl⟩ |
      ⟨hstmt, -, rfl⟩ | ⟨hstmt, rfl⟩ | ⟨hstmt, rfl⟩
    · refine .inr (.inr ⟨by simp [hstmt], by simp [hstmt], ?_⟩)
      split <;>
        exact TxState.holds_goto hcall (by simp [hstmt]) (by simp [hstmt]) (fun _ => rfl)
          (by simp) (by simp)
    · rw [hstmt]
      rcases holds_processTxDescr hcall hstmt hq with ⟨rfl, hold⟩ | ⟨rfl, hold⟩ |
        ⟨hfree, href, hold⟩
      · exact .inl ⟨rfl, hold⟩
      · exact .inr (.inl ⟨q, rfl, hq, hold⟩)
      · exact .inr (.inr ⟨by simpa using hfree, by simpa using href, hold⟩)
    · exact .inr (.inr ⟨by simp [hstmt], by simp [hstmt], TxState.holds_goto hcall
        (by simp [hstmt]) (by simp [hstmt]) (fun _ => rfl) (by simp) (by simp)⟩)
    · exact .inr (.inr ⟨by simp [hstmt], by simp [hstmt],
        hreturn (by simp [hstmt]) (by simp [hstmt]) rfl rfl⟩)
    · exact .inr (.inr ⟨by simp [hstmt], by simp [hstmt], TxState.holds_goto hcall
        (by simp [hstmt]) (by simp [hstmt]) (fun _ => rfl) (by simp) (by simp)⟩)
    · exact .inr (.inr ⟨by simp [hstmt], by simp [hstmt],
        hreturn (by simp [hstmt]) (by simp [hstmt]) rfl rfl⟩)

omit [DecidableEq P] in
theorem holds_txDma {s t : TxState P A} {wb : BitVec 32} (hstep : s.dma wb = some t) :
    t.call = s.call ∧ t.holds = s.holds := by
  have hsame : t.call = s.call → t.cur = s.cur → (∀ i, (t.ring i).pbuf = (s.ring i).pbuf) →
      t.call = s.call ∧ t.holds = s.holds := by
    intro hcall hcur hpbuf
    refine ⟨hcall, ?_⟩
    unfold TxState.holds
    rw [hcall, hcur, TxState.ptr_congr hpbuf]
  obtain ⟨-, ⟨-, rfl⟩ | ⟨-, rfl⟩⟩ := txDma_cases hstep
  · exact hsame rfl rfl (update_pbuf rfl)
  · exact hsame rfl rfl fun _ => rfl

end Tx

/-- Away from the allocation, a receive descriptor holds what it points to. -/
theorem RxState.holds_eq {s : RxState P A} (h : s.call ≠ some .alloc) : s.holds = s.ptr := by
  unfold RxState.holds
  split
  next hcall => exact absurd hcall h
  next => rfl

theorem RxState.holds_alloc {s : RxState P A} (h : s.call = some .alloc) :
    s.holds = Function.update s.ptr s.cur none := by
  unfold RxState.holds
  rw [h]

theorem RxState.ptr_congr {s t : RxState P A} (h : ∀ i, (t.ring i).pbuf = (s.ring i).pbuf) :
    t.ptr = s.ptr := funext fun i => by rw [RxState.ptr, RxState.ptr, h i]

/-- A statement that neither writes a pointer nor gives a pbuf away. -/
theorem RxState.holds_same {s t : RxState P A} (h : ∀ i, (t.ring i).pbuf = (s.ring i).pbuf)
    (hs : s.call ≠ some .alloc) (ht : t.call ≠ some .alloc) :
    (∀ i, (t.ring i).pbuf = (s.ring i).pbuf) ∧ t.holds = s.holds :=
  ⟨h, by rw [RxState.holds_eq hs, RxState.holds_eq ht, RxState.ptr_congr h]⟩

/-- The lengths go into the pbuf; the descriptor keeps pointing to it. -/
theorem RxState.ptr_setLen (s : RxState P A) : (s.setLen.goto .input).ptr = s.ptr := by
  funext i
  show (Function.update s.ring s.cur _ i).pbuf.map Pbuf.addr = (s.ring i).pbuf.map Pbuf.addr
  by_cases hic : i = s.cur
  · subst hic
    rw [Function.update_self, Option.map_map]
    rfl
  · rw [Function.update_of_ne hic]

/-- **The receive side**, statements: `free` gives the reference of the descriptor at the
    cursor up, `setLen` writes the pbuf, and the others do nothing to either. -/
theorem holds_rxCpu {s t : RxState P A} (hstep : rxStep s .cpu = some t) :
    (s.call = some .setLen ∧ t = s.setLen.goto .input) ∨
    (s.call = some .free ∧ t = s.freePbuf.goto .alloc) ∨
    (s.call ≠ some .setLen ∧ s.call ≠ some .free ∧
      (∀ i, (t.ring i).pbuf = (s.ring i).pbuf) ∧ t.holds = s.holds) := by
  obtain ⟨st, hcall, hstmt⟩ := Option.bind_eq_some_iff.mp hstep
  cases st with
  | input | alloc => simp [RxState.stmt] at hstmt
  | setLen => exact .inl ⟨hcall, (Option.some.inj hstmt).symm⟩
  | free => exact .inr (.inl ⟨hcall, (Option.some.inj hstmt).symm⟩)
  | checkOwn | checkPbuf | checkFlags | checkAlloc =>
    cases hstmt
    refine .inr (.inr ⟨by simp [hcall], by simp [hcall], ?_⟩)
    split <;>
      exact RxState.holds_same (fun _ => rfl) (by simp [hcall]) (by simp [RxState.return,
        RxState.goto])
  | testRbus =>
    cases hstmt
    refine .inr (.inr ⟨by simp [hcall], by simp [hcall], ?_⟩)
    split <;> exact RxState.holds_same (fun _ => rfl) (by simp [hcall]) (by simp [RxState.goto])
  | setBuf | setOwn =>
    cases hstmt
    exact .inr (.inr ⟨by simp [hcall], by simp [hcall],
      RxState.holds_same (update_pbuf rfl) (by simp [hcall]) (by simp [RxState.goto])⟩)
  | ackRbus | poll | advance =>
    cases hstmt
    exact .inr (.inr ⟨by simp [hcall], by simp [hcall],
      RxState.holds_same (fun _ => rfl) (by simp [hcall]) (by simp [RxState.goto,
        RxState.return])⟩)

/-- … the calls of lwIP and of the allocator. -/
theorem holds_rxInput {s t : RxState P A} {accept : Bool}
    (hstep : rxStep s (.input accept) = some t) :
    s.call = some .input ∧ (∀ i, (t.ring i).pbuf = (s.ring i).pbuf) ∧
      t.holds = if accept then Function.update s.ptr s.cur none else s.ptr := by
  obtain ⟨hcall, rfl⟩ := rxStep_input hstep
  refine ⟨hcall, fun _ => rfl, ?_⟩
  cases accept <;> rfl

theorem holds_rxAlloc {s t : RxState P A} {fresh : Option (Pbuf P A)}
    (hstep : rxStep s (.alloc fresh) = some t) :
    s.call = some .alloc ∧
      t.ring = Function.update s.ring s.cur { s.desc with pbuf := fresh } ∧
      t.holds = t.ptr ∧ t.ptr = Function.update s.ptr s.cur (fresh.map Pbuf.addr) := by
  obtain ⟨hcall, rfl⟩ := rxStep_alloc hstep
  refine ⟨hcall, rfl, RxState.holds_eq (by simp [RxState.goto]), ?_⟩
  funext i
  show (Function.update s.ring s.cur { s.desc with pbuf := fresh } i).pbuf.map Pbuf.addr = _
  by_cases hi : i = s.cur
  · subst hi
    simp
  · simp [Function.update_of_ne hi, RxState.ptr]

/-- The DMA and the call leave the pointers alone. -/
theorem holds_rxDma {s t : RxState P A} {w : BitVec 32} (hstep : s.dma w = some t) :
    (∀ i, (t.ring i).pbuf = (s.ring i).pbuf) ∧ t.holds = s.holds := by
  have hsame : t.call = s.call → t.cur = s.cur → (∀ i, (t.ring i).pbuf = (s.ring i).pbuf) →
      (∀ i, (t.ring i).pbuf = (s.ring i).pbuf) ∧ t.holds = s.holds := by
    intro hcall hcur hpbuf
    refine ⟨hpbuf, ?_⟩
    unfold RxState.holds
    rw [hcall, hcur, RxState.ptr_congr hpbuf]
  obtain ⟨-, ⟨-, rfl⟩ | ⟨-, rfl⟩⟩ := rxDma_cases hstep
  · exact hsame rfl rfl (update_pbuf rfl)
  · exact hsame rfl rfl fun _ => rfl

theorem holds_rxCall {s t : RxState P A} (hstep : rxStep s .call = some t) :
    (∀ i, (t.ring i).pbuf = (s.ring i).pbuf) ∧ t.holds = s.holds := by
  obtain ⟨hcall, rfl⟩ := rxStep_call hstep
  exact RxState.holds_same (fun _ => rfl) (by simp [hcall]) (by simp [RxState.goto])

/-! ## The invariant -/

variable [DecidableEq P]

/-- Everybody who holds a reference to a pbuf, and how many. -/
def Sys.held (N : Nat) (s : Sys P A) : P → Nat :=
  s.lwip + holders N s.tx.holds + holders N s.rx.holds

/-- The books with one reference more in lwIP's hands. -/
theorem give_holders (N : Nat) (s : Sys P A) (o : Option P) :
    give s.lwip o + holders N s.tx.holds + holders N s.rx.holds = s.held N + one o := by
  funext p
  simp only [Sys.held, give, Pi.add_apply]
  omega

/-- … with one less. -/
theorem drop_holders (N : Nat) (s : Sys P A) {x : P} (hx : 0 < s.lwip x) :
    drop s.lwip (some x) + holders N s.tx.holds + holders N s.rx.holds + one (some x) =
      s.held N := by
  funext p
  simp only [Sys.held, drop, Pi.add_apply, Pi.sub_apply]
  by_cases hp : x = p
  · subst hp
    rw [one_self]
    omega
  · rw [one_of_ne hp]
    omega

theorem drop_pos {lwip : P → Nat} {x y : P} (hy : 0 < lwip y) (hxy : y = x → 1 < lwip x) :
    0 < drop lwip (some x) y := by
  simp only [drop, Pi.sub_apply]
  by_cases h : x = y
  · subst h
    have := hxy rfl
    rw [one_self]
    omega
  · rw [one_of_ne h]
    omega

theorem le_give (lwip : P → Nat) (o : Option P) (x : P) : lwip x ≤ give lwip o x :=
  Nat.le_add_right _ _

/-- The caller of `ethernetif_output` keeps its reference. -/
theorem passed_head {s : Sys P A} {c : TxCall P A} (hc : s.tx.call = some c) {x : P}
    (hx : c.p.head.addr = x) : s.passed x = true := by
  simp [Sys.passed, hc, hx]

theorem not_mem_of_busy {s : Sys P A} {c : TxCall P A} (hc : s.tx.call = some c) {x : P}
    (hx : s.busy x = false) {q : Pbuf P A} (hq : q ∈ c.p.frags) : q.addr ≠ x := by
  simp only [Sys.busy, hc, Option.any_some, decide_eq_false_iff_not] at hx
  rintro rfl
  exact hx (List.mem_map_of_mem hq)

variable [Fintype P] [DecidableEq A]

/-- **The invariant of the zero-copy path.** -/
structure SysInv (N : Nat) (s : Sys P A) : Prop where
  tx : TxInv N s.tx
  refs : TxRefs N s.tx
  rx : RxInv N s.rx
  balanced : Balanced s.heap (s.held N)
  excl : ∀ p, 0 < holders N s.rx.holds p → (s.heap p).ref ≤ 1
  distinct : ∀ i < N, ∀ j < N, i ≠ j → ∀ x, s.rx.ptr i = some x → s.rx.ptr j ≠ some x
  data : ∀ i < N, ∀ q, (s.rx.ring i).pbuf = some q → s.rx.holds i = some q.addr →
    (s.heap q.addr).val = q.data
  pinned : ∀ c, s.tx.call = some c →
    0 < s.lwip c.p.head.addr ∧ linkedIn s.heap c.p.frags = true

/-! ### What the books say -/

/-- **A receive descriptor's reference is the only one.** -/
theorem SysInv.exclusive {N : Nat} {s : Sys P A} (h : SysInv N s) {p : P}
    (hp : 0 < holders N s.rx.holds p) :
    (s.heap p).ref = 1 ∧ s.lwip p = 0 ∧ holders N s.tx.holds p = 0 ∧
      holders N s.rx.holds p = 1 ∧ links s.heap p = 0 := by
  have hbal := h.balanced p
  have hle := h.excl p hp
  simp only [Sys.held, Pi.add_apply] at hbal
  omega

omit [Fintype P] in
theorem linkedIn_congr {h h' : Heap P (PbufData A)} {l : List (Pbuf P A)}
    (hsame : ∀ q ∈ l, (h' q.addr).next = (h q.addr).next ∧ (h' q.addr).val = (h q.addr).val) :
    linkedIn h' l = linkedIn h l := by
  induction l with
  | nil => rfl
  | cons q rest ih =>
    obtain ⟨hnext, hval⟩ := hsame q (by simp)
    rw [linkedIn, linkedIn, hnext, hval, ih fun x hx => hsame x (by simp [hx])]

/-- A linked list with a live head is live to its end: each pbuf keeps the next one. -/
theorem linkedIn_links {h : Heap P (PbufData A)} {held : P → Nat} (hb : Balanced h held)
    {q : Pbuf P A} {rest : List (Pbuf P A)} (hl : linkedIn h (q :: rest) = true)
    (hq : 0 < (h q.addr).ref) : ∀ x ∈ rest, 0 < links h x.addr := by
  induction rest generalizing q with
  | nil => simp
  | cons r rest ih =>
    rw [linkedIn, Bool.and_eq_true, Bool.and_eq_true, decide_eq_true_eq, decide_eq_true_eq] at hl
    obtain ⟨⟨-, hnext⟩, hrest⟩ := hl
    have hlink : 0 < links h r.addr := links_pos hq hnext
    intro x hx
    rcases List.mem_cons.mp hx with rfl | hx
    · exact hlink
    · exact ih hrest (by have := hb r.addr; omega) x hx

/-- A pbuf of the running chain is lwIP's or linked from a live one. -/
theorem SysInv.chain_kept {N : Nat} {s : Sys P A} (h : SysInv N s) {c : TxCall P A}
    (hc : s.tx.call = some c) {x : Pbuf P A} (hx : x ∈ c.p.frags) :
    0 < s.lwip x.addr + links s.heap x.addr := by
  obtain ⟨hhead, hlinked⟩ := h.pinned c hc
  rcases List.mem_cons.mp hx with rfl | hx
  · omega
  · have hlive : 0 < (s.heap c.p.head.addr).ref := h.balanced.ref_pos (by
      simp only [Sys.held, Pi.add_apply]
      omega)
    have := linkedIn_links h.balanced hlinked hlive x hx
    omega

theorem SysInv.chain_live {N : Nat} {s : Sys P A} (h : SysInv N s) {c : TxCall P A}
    (hc : s.tx.call = some c) {x : Pbuf P A} (hx : x ∈ c.p.frags) : 0 < (s.heap x.addr).ref := by
  have hkept := h.chain_kept hc hx
  have hbal := h.balanced x.addr
  simp only [Sys.held, Pi.add_apply] at hbal
  omega

/-- A pbuf lwIP holds, or one that is linked, is not in a receive descriptor. -/
theorem SysInv.not_in_rx {N : Nat} {s : Sys P A} (h : SysInv N s) {p : P}
    (hp : 0 < s.lwip p + links s.heap p) : ¬ 0 < holders N s.rx.holds p := by
  intro hrx
  have := h.exclusive hrx
  omega

end EthernetIf
