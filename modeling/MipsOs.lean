import MipsOs.PageMap
import MipsOs.ExitWakeup
import MipsOs.SfsFreemap
import MipsOs.SfsFileLimits
import MipsOs.SfsSync
import MipsOs.SfsSerial
import MipsOs.ThreadRoom
import MipsOs.CondVar
import MipsOs.KheapSound
import MipsOs.VfsReferences
import MipsOs.PathScan
import MipsOs.VfsOpen
import MipsOs.VnodeLife
import MipsOs.SbrkShrink
import MipsOs.LhdDriver
import MipsOs.Devices
import MipsOs.Console
import MipsOs.CatMouse
import MipsOs.Stoplight
import MipsOs.Kgets
import MipsOs.Menu
import MipsOs.Syscalls
