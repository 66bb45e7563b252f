import Ubiqos.Kernel.Interrupts
import Ubiqos.Kernel.Replies
import Ubiqos.Io.Waiting
import Ubiqos.Kernel.Reaping
import Ubiqos.Keys.Revoked
import Ubiqos.Tmpfs.Writing
import Ubiqos.Servers.Pulses
import Ubiqos.Io.Cwd
import Ubiqos.Io.Seeking
import Ubiqos.Io.Shutting
import Ubiqos.Io.Opening
import Ubiqos.Sshd.Exact
import Ubiqos.Lwip.Pending
import Ubiqos.Disk.Forgotten
import Ubiqos.Disk.Reads
import Ubiqos.Node.Limits
import Ubiqos.Wasm.Deferred
import Ubiqos.Audio.Ring
import Ubiqos.Video.Pump
import Ubiqos.Usb.Delivered
import Ubiqos.Io.Normal
import Ubiqos.Modules.Flash
import Ubiqos.Fat.Identity
import Ubiqos.Fat.Ends
import Ubiqos.Crypto.Sha256
import Ubiqos.Sshd.Lines
import Ubiqos.Kernel.Print
import Ubiqos.Sshd.Packets
import Ubiqos.Console.Undo
import Ubiqos.Shell.Characters
import Ubiqos.Config.Store
import Ubiqos.Http.Bus
import Ubiqos.Lwip.Datagrams
import Ubiqos.Radio.Agreement
import Ubiqos.Shell.Redirects
import Ubiqos.Stdio.Refines
import Ubiqos.Stdio.RoundTrip
import Ubiqos.Stdio.Sizes
import Ubiqos.Video.Renderers
import Ubiqos.Video.Scrollback
import Ubiqos.Wasm.Listing
import Ubiqos.Wifi.Frames
