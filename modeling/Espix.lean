import Espix.Auth.NewAccount
import Espix.Auth.Pbkdf2
import Espix.Boot.Archive
import Espix.Boot.Loader
import Espix.Display.CopyRect
import Espix.Display.RectList
import Espix.Fs.DeadMount
import Espix.Fs.Descriptors
import Espix.Fs.Mediation
import Espix.Fs.OpenMode
import Espix.Fs.Partition
import Espix.Fs.Removal
import Espix.Net.RedactBuffer
import Espix.Nfsd.CallHeader
import Espix.Nfsd.Identity
import Espix.Nfsd.Minting
import Espix.Nfsd.Names
import Espix.Nfsd.Squash
import Espix.Proc.ArenaLedger
import Espix.Proc.Credentials
import Espix.Proc.Park
import Espix.Proc.Root
import Espix.Proc.SetId
import Espix.Proc.Sleep
import Espix.Proc.Teardown
import Espix.Proc.Waiting
import Espix.Shell.EnvOwner
import Espix.Shell.History
import Espix.Smbd.Rename
import Espix.Smbd.Wildcard
import Espix.Ssh.Derive
import Espix.Ssh.Hmac
import Espix.Ssh.Progress
import Espix.Ssh.Reader
import Espix.Ssh.SftpOpen
import Espix.Ssh.SftpStream
import Espix.Ssh.Window
import Espix.Terminal.Echo
import Espix.Terminal.Modes
import Espix.Terminal.Readers
import Espix.Umode.Flat
import Espix.Umode.Futex
import Espix.Umode.Loader
import Espix.Umode.Return
import Espix.User.Cond
import Espix.User.MutexWord
import Espix.User.Specific
