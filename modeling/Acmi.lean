import Acmi.Psc.RoundTrip
import Acmi.Psc.RecvErrors
import Acmi.Server.Receive
import Acmi.Control.Leftover
import Acmi.Server.Window
import Acmi.Server.Allocator
import Acmi.Server.Framing
import Acmi.Server.Ownership
import Acmi.Control.EepromWord
import Acmi.Control.Protection
import Acmi.Control.AdcTable
import Acmi.Spi.Link
import Acmi.Spi.Pulse
import Acmi.Evr.Registers
import Acmi.Evr.Reprogram
import Acmi.Sdcard.Warnings
import Acmi.Sdcard.Hwaddr
import Acmi.Sdcard.Eeprom
import Acmi.Wvfm.Acquisition
import Acmi.Wvfm.Fresh
import Acmi.Disco.Answer
import Acmi.Tftp.Upload
import Acmi.Lib.Blocks
import Acmi.Tftp.Request
import Acmi.Tftp.Server
import Acmi.Tftp.Card
import Acmi.Tftp.Ledger
import Acmi.Tftp.Session
import Acmi.Tftp.Timeout
import Acmi.Tftp.Peers
import Acmi.Tftp.Packets
import Acmi.Tftp.Store
import Acmi.Tftp.Fetch
import Acmi.Ivt.Calibration
import Acmi.Server.Broadcast
import Acmi.Control.Commands
import Acmi.Control.Chain
import Acmi.Wvfm.Rdout
import Acmi.Evr.Pulses
import Acmi.Wvfm.Delivery
import Acmi.Wvfm.Stamps
import Acmi.Evr.Legacy
import Acmi.Control.Injection
