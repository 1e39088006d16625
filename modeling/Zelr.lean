import Zelr.X509.Order
import Zelr.X509.Strict
import Zelr.X509.Hosts
import Zelr.Heap.Sound
import Zelr.Tls.Nonce
import Zelr.Tls.Flight
import Zelr.Paging.Clone
import Zelr.Paging.Rights
import Zelr.Files.Fifo
import Zelr.Wlan.Replay
import Zelr.Net.Delivery
import Zelr.Fat.Rename
import Zelr.Fat.Swept
import Zelr.Libc.Sound
import Zelr.Signals.Restored
import Zelr.Vfs.Resolve
import Zelr.User.Grow
import Zelr.Files.Tape
import Zelr.Fat.Made
import Zelr.Parts.Faithful
import Zelr.Tcp.Honest
import Zelr.Tcp.Window
import Zelr.Curve.Exchange
import Zelr.Rsa.Verify
import Zelr.Sched.Collect
import Zelr.Wlan.Sealed
import Zelr.Crypto.Seal
import Zelr.User.Args
import Zelr.Tls.Cut
import Zelr.Js.Room
import Zelr.Js.Text
import Zelr.Js.Search
import Zelr.Js.Shortest
import Zelr.Web.Reference
import Zelr.Web.Hidden
import Zelr.Web.Sent
import Zelr.Web.Upgrade
import Zelr.Web.Dechunk
import Zelr.Js.Asked
import Zelr.Js.Base64
import Zelr.Js.Keys
import Zelr.Js.Walks
import Zelr.Libc.Aligned
import Zelr.Libc.Sorted
import Zelr.Zones.Clock
import Zelr.Net.Dns
import Zelr.Fat.Freed
import Zelr.Games.Poker
