import Hbackup.Backup
import Hbackup.Basic
import Hbackup.Buffer
import Hbackup.Cleanup
import Hbackup.Equiv.Again
import Hbackup.Equiv.Aside
import Hbackup.Equiv.Atime
import Hbackup.Equiv.Backup
import Hbackup.Equiv.BackupRun
import Hbackup.Equiv.Buffer
import Hbackup.Equiv.CleanAll
import Hbackup.Equiv.CleanInputs
import Hbackup.Equiv.CleanRecurse
import Hbackup.Equiv.Cleanup
import Hbackup.Equiv.Copy
import Hbackup.Equiv.Destructor
import Hbackup.Equiv.Devices
import Hbackup.Equiv.Directories
import Hbackup.Equiv.DoClean
import Hbackup.Equiv.Entry
import Hbackup.Equiv.File
import Hbackup.Equiv.Format
import Hbackup.Equiv.HardLinks
import Hbackup.Equiv.HashSet
import Hbackup.Equiv.Hashing
import Hbackup.Equiv.HintFile
import Hbackup.Equiv.Hints
import Hbackup.Equiv.History
import Hbackup.Equiv.Hostfs
import Hbackup.Equiv.IndexText
import Hbackup.Equiv.Interleaved
import Hbackup.Equiv.Local
import Hbackup.Equiv.LongTerm
import Hbackup.Equiv.Makedirs
import Hbackup.Equiv.Objects
import Hbackup.Equiv.Order
import Hbackup.Equiv.Overwrite
import Hbackup.Equiv.Owners
import Hbackup.Equiv.Paths
import Hbackup.Equiv.Placed
import Hbackup.Equiv.PreserveAtime
import Hbackup.Equiv.ReadOnly
import Hbackup.Equiv.Recode
import Hbackup.Equiv.Repository
import Hbackup.Equiv.Restore
import Hbackup.Equiv.RestoreEntry
import Hbackup.Equiv.RestoreRun
import Hbackup.Equiv.RoundTrip
import Hbackup.Equiv.Sha1
import Hbackup.Equiv.Shape
import Hbackup.Equiv.Shared
import Hbackup.Equiv.Source
import Hbackup.Equiv.Target
import Hbackup.Equiv.Together
import Hbackup.Equiv.Tree
import Hbackup.Equiv.Verify
import Hbackup.Equiv.VerifyRestore
import Hbackup.Equiv.Walk
import Hbackup.Equiv.World
import Hbackup.Equiv.Writes
import Hbackup.File
import Hbackup.Filesystem
import Hbackup.HashSet
import Hbackup.Hashing
import Hbackup.Hostfs
import Hbackup.Lib.BlockStream
import Hbackup.Lib.Chains
import Hbackup.Lib.CharStream
import Hbackup.Lib.Concurrent
import Hbackup.Lib.ContentStore
import Hbackup.Lib.Cursor
import Hbackup.Lib.FormCoding
import Hbackup.Lib.Preorder
import Hbackup.Lib.ProgramLogic
import Hbackup.Lib.Separated
import Hbackup.Lib.Sha1
import Hbackup.Lib.Sources
import Hbackup.Local
import Hbackup.Recode
import Hbackup.Restore
import Hbackup.Script.Backup
import Hbackup.Script.Cleanup
import Hbackup.Script.Directories
import Hbackup.Script.Equiv.Backup
import Hbackup.Script.Equiv.Cleanup
import Hbackup.Script.Equiv.Directories
import Hbackup.Script.Equiv.Index
import Hbackup.Script.Equiv.Paths
import Hbackup.Script.Equiv.Restore
import Hbackup.Script.Equiv.RestoreRun
import Hbackup.Script.Equiv.RoundTrip
import Hbackup.Script.Equiv.SftpFile
import Hbackup.Script.Equiv.Verify
import Hbackup.Script.Index
import Hbackup.Script.Paths
import Hbackup.Script.Restore
import Hbackup.Script.SftpFile
import Hbackup.Script.Verify
import Hbackup.Sftp.Client
import Hbackup.Sftp.Equiv.Bookkeeping
import Hbackup.Sftp.Equiv.Client
import Hbackup.Sftp.Equiv.Flush
import Hbackup.Sftp.Equiv.Frame
import Hbackup.Sftp.Equiv.Ledger
import Hbackup.Sftp.Equiv.Leftovers
import Hbackup.Sftp.Equiv.Listing
import Hbackup.Sftp.Equiv.Matching
import Hbackup.Sftp.Equiv.Packet
import Hbackup.Sftp.Equiv.Read
import Hbackup.Sftp.Equiv.Unpack
import Hbackup.Sftp.Equiv.WriteQueue
import Hbackup.Sftp.File
import Hbackup.Sftp.Filesystem
import Hbackup.Sftp.Frame
import Hbackup.Sftp.Listing
import Hbackup.Sftp.Packet
import Hbackup.Sha1
import Hbackup.Shared
import Hbackup.Utils.Equiv.Grammar
import Hbackup.Utils.Equiv.Hex
import Hbackup.Utils.Equiv.IndexLine
import Hbackup.Utils.Equiv.Names
import Hbackup.Utils.Equiv.Number
import Hbackup.Utils.Equiv.Reads
import Hbackup.Utils.Equiv.UrlEncode
import Hbackup.Utils.Hex
import Hbackup.Utils.IndexLine
import Hbackup.Utils.Names
import Hbackup.Utils.Number
import Hbackup.Utils.Reads
import Hbackup.Utils.UrlEncode
import Hbackup.Verify
import Hbackup.World
