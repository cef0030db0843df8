import Cake.Lib.Moves
import Cake.Lib.Ledger
import Cake.Lib.Logs
import Cake.Project
import Cake.Kept
import Cake.Outputs
import Cake.Edits
import Cake.Idle
import Cake.DepNames
import Cake.DepText
import Cake.Calls
import Cake.Waited
import Cake.Decision
import Cake.OwnObjects
import Cake.Isolation
import Cake.Entries
import Cake.Contents
import Cake.Descriptors
import Cake.DepScan
import Cake.Operands
import Cake.MainSteps
import Cake.Methods
import Cake.Depends
import Cake.Frand
import Cake.Processors
import Cake.Search
import Cake.Mkpath
import Cake.Buffers
import Cake.Increment
import Cake.Load
import Cake.Converge
import Cake.Retry
import Cake.Registry
import Cake.Grab
import Cake.Tables
import Cake.References
