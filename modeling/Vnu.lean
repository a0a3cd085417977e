import Vnu.Ansi.Cells
import Vnu.Exec.Elf
import Vnu.Fat16.Accounting
import Vnu.Fat16.Resizing
import Vnu.Fat16.RootSlots
import Vnu.Fat16.ShortClash
import Vnu.Malloc.Runs
import Vnu.Pipes.Fifo
import Vnu.Proc.Lineage
import Vnu.Proc.Nesting
import Vnu.Proc.Pending
import Vnu.Proc.Raising
import Vnu.Proc.Waiting
import Vnu.Proc.WaitWord
import Vnu.Px.PngDecoding
import Vnu.Tls.Agreement
import Vnu.Tls.Bounds
import Vnu.Tls.Certificate
import Vnu.Tls.Delivery
import Vnu.Tls.Digest
import Vnu.Tls.Finished
import Vnu.Tls.FlightOrder
import Vnu.Tls.Rsa
import Vnu.Tls.Sealing
import Vnu.Tls.Ghash
import Vnu.Tls.Prf
import Vnu.Ustar
import Vnu.Vash.Fnmatch
import Vnu.Vash.Lex
import Vnu.Vash.Expand
import Vnu.Vash.Order
import Vnu.Vash.QuotedRuns
import Vnu.Vash.Params
import Vnu.Vash.Vars
import Vnu.Vash.Locals
import Vnu.Vash.Prefix
import Vnu.Vfs.Dirents
import Vnu.Vfs.Guards
import Vnu.Vfs.Moving
import Vnu.Vfs.Shape
import Vnu.Vfs.Backing
import Vnu.Vfs.Quota
