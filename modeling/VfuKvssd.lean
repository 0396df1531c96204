import VfuKvssd.Foundations.Runs
import VfuKvssd.Foundations.SlotTable
import VfuKvssd.Controller.KeyIsolation
import VfuKvssd.Client.Hammer
import VfuKvssd.Client.Usage
import VfuKvssd.Controller.HostBuffer
import VfuKvssd.Controller.Scan
import VfuKvssd.Controller.ExactlyOnce
import VfuKvssd.Controller.QueueLinks
import VfuKvssd.Controller.Readiness
import VfuKvssd.Controller.Confinement
import VfuKvssd.Controller.DeviceReset
import VfuKvssd.Controller.Batching
import VfuKvssd.Controller.RegisterAccess
import VfuKvssd.Controller.Features
import VfuKvssd.Controller.TransferLimits
import VfuKvssd.Controller.RingHoles
import VfuKvssd.KeyValue.SlotIndex
import VfuKvssd.Startup.Lifecycle
import VfuKvssd.Controller.Interrupts
import VfuKvssd.Controller.SqHeads
import VfuKvssd.Controller.MsixTable
import VfuKvssd.Dma.UnmapRuns
