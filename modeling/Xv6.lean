import Xv6.LogCrash
import Xv6.Brk
import Xv6.Race
import Xv6.CloneSound
import Xv6.Tlb
import Xv6.DirsSound
import Xv6.Layout
import Xv6.CommitRoom
import Xv6.ItableSound
import Xv6.VolWrite
import Xv6.PipeSound
import Xv6.FutexSound
import Xv6.LoopsSound
import Xv6.MlfqSound
import Xv6.VirtioSound
import Xv6.MkfsRead
import Xv6.Mapping
import Xv6.System
import Xv6.UserMem
import Xv6.PageMap
import Xv6.Unread
import Xv6.Console
import Xv6.Memmove
import Xv6.Printint
import Xv6.Rw
import Xv6.ProdCons
import Xv6.Grep
