import OciKernel.Memory.BuddyCanonical
import OciKernel.Memory.HeapFrames
import OciKernel.Process.Scheduler
import OciKernel.Isolation.CgroupRun
import OciKernel.Config.Memory
import OciKernel.Host.Boot
import OciKernel.Host.FileTree
import OciKernel.Host.Registries
import OciKernel.Host.Console
import OciKernel.Net.Dma
import OciKernel.Net.RxQueue
import OciKernel.Net.TxQueue
import OciKernel.Net.RingGeometry
import OciKernel.Net.LocalPorts
import OciKernel.Net.IpCapacity
import OciKernel.Net.Clock
import OciKernel.Net.ListenerSetup
import OciKernel.Net.HttpExchange
import OciKernel.Net.HttpSound
import OciKernel.Oci.Layer
import OciKernel.Oci.Pull
import OciKernel.Interrupts
