import OsLabs.Data.Memory
import OsLabs.Data.Machine
import OsLabs.Data.Linked
import OsLabs.Pmm.FirstFit
import OsLabs.Pmm.Buffers
import OsLabs.Kmt.Semaphore
import OsLabs.Kmt.Spinlock
import OsLabs.Kmt.Tasks
import OsLabs.Kmt.Fairness
import OsLabs.Kmt.ProducerConsumer
import OsLabs.Kvdb.Lookup
import OsLabs.Kvdb.Durable
import OsLabs.Kvdb.Shared
import OsLabs.Kvdb.Locks
import OsLabs.Kvdb.Frame
import OsLabs.Ext2.Ownership
import OsLabs.Ext2.ReadBack
import OsLabs.Ext2.Isolation
import OsLabs.Ext2.Path
import OsLabs.Ext2.Directory
import OsLabs.Ext2.Descriptors
import OsLabs.Ext2.Links
import OsLabs.Ext2.Names
import OsLabs.Ext2.Capacity
import OsLabs.Ext2.Ramdisk
import OsLabs.Vfs.Disks
import OsLabs.Devices.Input
import OsLabs.Devices.Tty
import OsLabs.Devices.Screen
import OsLabs.Libco.Slots
import OsLabs.Klib.String
import OsLabs.Os.Irq
import OsLabs.Vfs.MountBounds
import OsLabs.Vfs.TaskNames
import OsLabs.Pstree.Threads
import OsLabs.Pstree.Drawing
import OsLabs.Sperf.Totals
import OsLabs.Frecov.Bounds
import OsLabs.Vfs.Devfs
import OsLabs.Vfs.Access
import OsLabs.Vfs.Forget
import OsLabs.Vfs.Runs
import OsLabs.Devices.Keyboard
import OsLabs.Devices.TtyRead
import OsLabs.Devices.Echo
import OsLabs.Devices.Picture
import OsLabs.Ext2.Progress
import OsLabs.Kmt.SemInit
import OsLabs.Shell.Descriptors
import OsLabs.Shell.Cd
import OsLabs.Amgame.Model
import OsLabs.Amgame.Obstacles
import OsLabs.Amgame.Score
import OsLabs.Frecov.Names
import OsLabs.Kmt.SemList
import OsLabs.Util.PathBuffer
