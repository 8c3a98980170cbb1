import EthernetIf.Desc
import EthernetIf.Lib.Lts
import EthernetIf.Lib.RecLock
import EthernetIf.Lib.Signal

/-!
# Bringing the link up and down

Three tasks and a chip. `portEthInit` sets the interface up with lwIP's core lock held, and on
the way — inside `netif_add` — creates the task that polls the PHY; so `ethernetif_phy` may run
before the callbacks it depends on are registered. lwIP's own thread takes the lock and gives
it back. The PHY loses the link, finds it again and negotiates another mode in between, at any
moment and as often as it likes.

A netif function of `netifapi` takes the lock, calls lwIP and gives the lock back, and
`netif_set_link_up` and `_down` call the link callback inside, which uses `netifapi` again: the
lock is recursive, and a nested call is one label (`LinkState.netifapi`).

What is not in the code is assumed about the PHY: `phy_link_isup` reads a bit that is low when
the link is, or was at some time since the last read; the mode changes only while the link is
down; and the speed code is one of four, the one of the current mode while the link is up.
-/

namespace EthernetIf

open Lts Signal

/-! ## Registers -/

-- MACCR
def ETH_MACCR_RE : BitVec 32 := 1#32 <<< 2
def ETH_MACCR_TE : BitVec 32 := 1#32 <<< 3
def ETH_MACCR_IPCO : BitVec 32 := 1#32 <<< 10
def ETH_MACCR_DM : BitVec 32 := 1#32 <<< 11
def ETH_MACCR_ROD : BitVec 32 := 1#32 <<< 13
def ETH_MACCR_FES : BitVec 32 := 1#32 <<< 14

-- the special control and status register of the LAN8742A
def LAN87XX_SCSR_AUTODONE : BitVec 32 := 1#32 <<< 12
def LAN87XX_SCSR_SPEED : BitVec 32 := 7#32 <<< 2
def LAN87XX_SCSR_SPEED_10HD : BitVec 32 := 1#32 <<< 2
def LAN87XX_SCSR_SPEED_100HD : BitVec 32 := 2#32 <<< 2
def LAN87XX_SCSR_SPEED_10FD : BitVec 32 := 5#32 <<< 2
def LAN87XX_SCSR_SPEED_100FD : BitVec 32 := 6#32 <<< 2

/-! ## The PHY -/

structure PhyMode where
  speed100 : Bool
  fullDuplex : Bool
deriving DecidableEq, Repr

/-- The speed code of a mode. -/
def PhyMode.speed : PhyMode → BitVec 32
  | ⟨false, false⟩ => LAN87XX_SCSR_SPEED_10HD
  | ⟨true, false⟩ => LAN87XX_SCSR_SPEED_100HD
  | ⟨false, true⟩ => LAN87XX_SCSR_SPEED_10FD
  | ⟨true, true⟩ => LAN87XX_SCSR_SPEED_100FD

/-- The same mode in `ETH_MACCR`. -/
def PhyMode.maccr (m : PhyMode) : BitVec 32 :=
  (if m.speed100 then ETH_MACCR_FES else 0#32) ||| (if m.fullDuplex then ETH_MACCR_DM else 0#32)

/-- The chip. `low` is the latch behind the link bit: the link is down, or was at some time
    since the last read. -/
structure PhyChip where
  link : Bool
  mode : PhyMode
  low : Bool
  latched : link = false → low = true
deriving DecidableEq, Repr

namespace PhyChip

/-- The read of the link bit, as far as the chip is concerned. -/
def read (c : PhyChip) : PhyChip :=
  { c with low := !c.link, latched := fun h => by rw [h]; rfl }

/-- `phy_link_isup` -/
def isup (c : PhyChip) : Bool := !c.low

/-- What the special control and status register may say. -/
def Reports (c : PhyChip) (status : BitVec 32) : Prop :=
  (∃ sp fd, status &&& LAN87XX_SCSR_SPEED = (PhyMode.mk sp fd).speed) ∧
    (c.link = true → status &&& LAN87XX_SCSR_SPEED = c.mode.speed)

instance (c : PhyChip) (status : BitVec 32) : Decidable (c.Reports status) :=
  inferInstanceAs (Decidable (_ ∧ _))

/-- What the chip does by itself. -/
inductive Act
  | drop
  | negotiate (m : PhyMode)
  | recover
deriving DecidableEq, Repr

def act (c : PhyChip) : Act → Option PhyChip
  | .drop => some { c with link := false, low := true, latched := fun _ => rfl }
  | .negotiate m => if c.link then none else some { c with mode := m }
  | .recover => some { c with link := true, latched := fun h => by simp at h }

end PhyChip

/-! ## The code -/

/-- The tasks that take the core lock. -/
inductive Task
  | main   -- startTask3, in portEthInit
  | phy    -- ETH_phy
  | tcpip  -- lwIP's own
deriving DecidableEq, Repr

/-- `portEthInit`, from `LOCK_TCPIP_CORE()` on, with `ethernetif_init` where `netif_add` calls
    it. Of `mac_init` and `net_init` it is what they do to `ETH_MACCR` and to the flags. -/
inductive MainStmt
  | lock                                  -- LOCK_TCPIP_CORE();
  | macInit                               -- ETH_MACCR |= …;
  | netInit                               -- netif->flags = …;
  | createPhy                             -- xTaskCreate(ethernetif_phy, …);
  | startRead (m : BitVec 32)             -- eth_start: the read of ETH_MACCR |= m;
  | startWrite (m maccr : BitVec 32)      --   and its write
  | setDefault                            -- netif_set_default(…);
  | setStatusCallback                     -- netif_set_status_callback(…);
  | setLinkCallback                       -- netif_set_link_callback(…);
  | unlock                                -- UNLOCK_TCPIP_CORE();
  | done
deriving DecidableEq, Repr

/-- `phy_negotiate` -/
inductive NegStmt
  | readMaccr   -- int regval = ETH_MACCR; regval &= ~(ETH_MACCR_DM | ETH_MACCR_FES);
  | writeBcr    -- eth_smi_write(PHY_ADDRESS, PHY_REG_BCR, PHY_REG_BCR_AN);
  | waitDone    -- while(!((status=eth_smi_read(…)) & LAN87XX_SCSR_AUTODONE));
  | switch      -- switch(status & LAN87XX_SCSR_SPEED) …
  | writeMaccr  -- ETH_MACCR = regval;
deriving DecidableEq, Repr

/-- `ethernetif_link_callback` -/
inductive CbStmt
  | test                      -- if(netif_is_link_up(netif))
  | negotiate (st : NegStmt)  --   phy_negotiate();
  | setUp                     --   netifapi_netif_set_up(netif);
  | dhcpStart                 --   netifapi_dhcp_start(netif);
  | igmpStart                 --   LOCK_TCPIP_CORE(); igmp_start(netif); UNLOCK_TCPIP_CORE();
  | setDown                   -- else netifapi_netif_set_down(netif);
  | dhcpStop                  --   netifapi_dhcp_stop(netif);
  | igmpStop                  --   LOCK_TCPIP_CORE(); igmp_stop(netif); UNLOCK_TCPIP_CORE();
deriving DecidableEq, Repr

/-- `ethernetif_phy` -/
inductive PhyStmt
  | start                   -- bool link_status = netif_is_link_up(netif);
  | reset                   -- phy_reset(PHY_ADDRESS);
  | poll                    -- if(link_status != phy_link_isup(PHY_ADDRESS))
  | toggle                  --   link_status = !link_status;
  | lock                    --   netifapi_netif_set_link_up(netif) or …_down(netif):
  | setLink                 --     netif_set_link_up(netif) or netif_set_link_down(netif)
  | callback (st : CbStmt)  --       and the link callback inside
  | unlock
  | delay                   -- vTaskDelay(500);
deriving DecidableEq, Repr

/-! ## The machine -/

/-- What the code uses of `struct netif`, and of the services behind it. -/
structure Netif where
  linkUp : Switch false   -- NETIF_FLAG_LINK_UP
  up : Switch false       -- NETIF_FLAG_UP
  dhcp : Switch false     -- dhcp_start, dhcp_stop
  igmp : Switch false     -- igmp_start, igmp_stop
  statusCallback : Bool   -- status_callback != NULL
  linkCallback : Bool     -- link_callback != NULL

/-- The tasks, the lock, the registers and the chip, with the local variables of
    `ethernetif_phy` and `phy_negotiate`. The last two fields no code reads: the readings of
    the link, and the runs of the link callback, each with the flag it found. -/
structure LinkState where
  main : MainStmt
  phy : Option PhyStmt
  lock : RecLock Task
  netif : Netif
  linkStatus : Bool
  regval : BitVec 32
  status : BitVec 32
  ETH_MACCR : BitVec 32
  chip : PhyChip
  readings : List Bool
  calls : List Bool

inductive LinkAct
  | main                        -- portEthInit takes its next statement
  | phy                         -- so does ethernetif_phy
  | scsr (status : BitVec 32)   --   and this is what the wait for AUTODONE reads
  | tcpipTake                   -- lwIP's thread takes the lock
  | tcpipGive
  | chip (a : PhyChip.Act)
deriving DecidableEq, Repr

namespace LinkState

/-- A static `netif`, a MAC out of reset, and a PHY in any state. -/
def init (maccr : BitVec 32) (chip : PhyChip) : LinkState :=
  { main := .lock, phy := none, lock := .free,
    netif :=
      { linkUp := .init false, up := .init false, dhcp := .init false, igmp := .init false,
        statusCallback := false, linkCallback := false },
    linkStatus := false, regval := 0#32, status := 0#32, ETH_MACCR := maccr, chip := chip,
    readings := [], calls := [] }

/-- `portEthInit` -/
def portEthInit (s : LinkState) : Option LinkState :=
  match s.main with
  | .lock => (s.lock.take .main).map fun l => { s with lock := l, main := .macInit }
  | .macInit =>
      some { s with
        ETH_MACCR := s.ETH_MACCR ||| (ETH_MACCR_FES ||| ETH_MACCR_ROD ||| ETH_MACCR_IPCO |||
          ETH_MACCR_DM)
        main := .netInit }
  | .netInit =>
      -- NETIF_FLAG_BROADCAST | NETIF_FLAG_ETHARP: neither of the two flags below
      some { s with netif.linkUp := .init false, netif.up := .init false, main := .createPhy }
  | .createPhy => some { s with phy := some .start, main := .startRead ETH_MACCR_TE }
  | .startRead m => some { s with main := .startWrite m s.ETH_MACCR }
  | .startWrite m maccr =>
      some { s with
        ETH_MACCR := maccr ||| m
        main := if m = ETH_MACCR_TE then .startRead ETH_MACCR_RE else .setDefault }
  | .setDefault => some { s with main := .setStatusCallback }
  | .setStatusCallback =>
      some { s with netif.statusCallback := true, main := .setLinkCallback }
  | .setLinkCallback => some { s with netif.linkCallback := true, main := .unlock }
  | .unlock => (s.lock.give .main).map fun l => { s with lock := l, main := .done }
  | .done => none

/-- A netif function called by `ETH_phy` through `netifapi`. -/
def netifapi (s : LinkState) (f : Netif → Netif) : Option LinkState :=
  (s.lock.take .phy).bind fun l =>
    (l.give .phy).map fun l' => { s with lock := l', netif := f s.netif }

/-- The switch of `phy_negotiate`. Another code leaves `regval` alone. -/
def negotiateSwitch (status regval : BitVec 32) : BitVec 32 :=
  if status &&& LAN87XX_SCSR_SPEED = LAN87XX_SCSR_SPEED_10HD then regval
  else if status &&& LAN87XX_SCSR_SPEED = LAN87XX_SCSR_SPEED_100HD then regval ||| ETH_MACCR_FES
  else if status &&& LAN87XX_SCSR_SPEED = LAN87XX_SCSR_SPEED_10FD then regval ||| ETH_MACCR_DM
  else if status &&& LAN87XX_SCSR_SPEED = LAN87XX_SCSR_SPEED_100FD then
    regval ||| ETH_MACCR_FES ||| ETH_MACCR_DM
  else regval

/-- `ETH_phy` goes to a statement. -/
def goto (s : LinkState) (st : PhyStmt) : LinkState := { s with phy := some st }

/-- `phy_negotiate`. Its wait is the label `scsr`. -/
def phyNegotiate (s : LinkState) : NegStmt → Option LinkState
  | .readMaccr =>
      some { s.goto (.callback (.negotiate .writeBcr)) with
        regval := s.ETH_MACCR &&& ~~~(ETH_MACCR_DM ||| ETH_MACCR_FES) }
  | .writeBcr => some (s.goto (.callback (.negotiate .waitDone)))
  | .waitDone => none
  | .switch =>
      some { s.goto (.callback (.negotiate .writeMaccr)) with
        regval := negotiateSwitch s.status s.regval }
  | .writeMaccr => some { s.goto (.callback .setUp) with ETH_MACCR := s.regval }

/-- `ethernetif_link_callback` -/
def linkCallback (s : LinkState) : CbStmt → Option LinkState
  | .test =>
      some (s.goto (.callback (if s.netif.linkUp.on then .negotiate .readMaccr else .setDown)))
  | .negotiate st => s.phyNegotiate st
  | .setUp => (s.goto (.callback .dhcpStart)).netifapi fun n => { n with up := n.up.set true }
  | .dhcpStart =>
      (s.goto (.callback .igmpStart)).netifapi fun n => { n with dhcp := n.dhcp.turn true }
  | .igmpStart => (s.goto .unlock).netifapi fun n => { n with igmp := n.igmp.turn true }
  | .setDown => (s.goto (.callback .dhcpStop)).netifapi fun n => { n with up := n.up.set false }
  | .dhcpStop =>
      (s.goto (.callback .igmpStop)).netifapi fun n => { n with dhcp := n.dhcp.turn false }
  | .igmpStop => (s.goto .unlock).netifapi fun n => { n with igmp := n.igmp.turn false }

/-- `netif_set_link_up` and `netif_set_link_down`: nothing when the flag is as it should be,
    else the flag, and the link callback if there is one. -/
def netifSetLink (s : LinkState) (v : Bool) : LinkState :=
  if s.netif.linkUp.on = v then s.goto .unlock
  else if s.netif.linkCallback then
    { s.goto (.callback .test) with
      netif := { s.netif with linkUp := s.netif.linkUp.turn v }, calls := s.calls ++ [v] }
  else { s.goto .unlock with netif := { s.netif with linkUp := s.netif.linkUp.turn v } }

/-- `ethernetif_phy` -/
def ethernetifPhy (s : LinkState) : PhyStmt → Option LinkState
  | .start => some { s.goto .reset with linkStatus := s.netif.linkUp.on }
  | .reset => some (s.goto .poll)
  | .poll =>
      some { s.goto (if s.linkStatus ≠ s.chip.isup then .toggle else .delay) with
        chip := s.chip.read, readings := s.readings ++ [s.chip.isup] }
  | .toggle => some { s.goto .lock with linkStatus := !s.linkStatus }
  | .lock => (s.lock.take .phy).map fun l => { s.goto .setLink with lock := l }
  | .setLink => some (s.netifSetLink s.linkStatus)
  | .callback st => s.linkCallback st
  | .unlock => (s.lock.give .phy).map fun l => { s.goto .delay with lock := l }
  | .delay => some (s.goto .poll)

end LinkState

def linkStep (s : LinkState) : LinkAct → Option LinkState
  | .main => s.portEthInit
  | .phy => s.phy.bind s.ethernetifPhy
  | .scsr status =>
      if s.phy = some (.callback (.negotiate .waitDone)) ∧ s.chip.Reports status then
        some { s with
          phy := some (.callback (.negotiate
            (if tst status LAN87XX_SCSR_AUTODONE then .switch else .waitDone)))
          status := status }
      else none
  | .tcpipTake => (s.lock.take .tcpip).map fun l => { s with lock := l }
  | .tcpipGive => (s.lock.give .tcpip).map fun l => { s with lock := l }
  | .chip a => (s.chip.act a).map fun c => { s with chip := c }

end EthernetIf
