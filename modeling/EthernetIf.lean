import EthernetIf.Tx.Fifo
import EthernetIf.Tx.Deadlock
import EthernetIf.Rx.Wake
import EthernetIf.Tx.Frame
import EthernetIf.Tx.Payload
import EthernetIf.Rx.Order
import EthernetIf.Rx.Errors
import EthernetIf.Rx.Split
import EthernetIf.Isr.Sync
import EthernetIf.Isr.Handshake
import EthernetIf.ZeroCopy.Isolation
import EthernetIf.Ptp.RoundTrip
import EthernetIf.Ptp.Offset
import EthernetIf.Ptp.Addend
import EthernetIf.Ptp.Clock
import EthernetIf.Ptp.Correction
import EthernetIf.Ptp.Update
import EthernetIf.Link.Mode
import EthernetIf.Link.Hold
import EthernetIf.Link.Progress
import EthernetIf.Tx.Progress
import EthernetIf.Tx.Reassembly
import EthernetIf.Rx.Thread
import EthernetIf.Isr.Progress
import EthernetIf.Ptp.History
import EthernetIf.Ptp.Returns
import EthernetIf.Sys.Nesting
