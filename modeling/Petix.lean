import Petix.Proof.Mem.Range
import Petix.Proof.Proc.Waits
import Petix.Proof.Sync.Semaphores
import Petix.Proof.Pipe.Close
import Petix.Proof.Pipe.Eof
import Petix.Proof.Fs.Mounts
import Petix.Proof.Threads.Balance
import Petix.Proof.Threads.Heap
import Petix.Proof.Tar.Bounds
import Petix.Proof.Tar.Listing
import Petix.Proof.Fs.Tree
import Petix.Proof.Terminal.Screen
import Petix.Proof.Tty.Order
import Petix.Proof.Tty.Lines
import Petix.Proof.Container.Values
import Petix.Proof.Container.Lifetime
import Petix.Proof.Kmalloc.StaleHeaders
import Petix.Proof.Stdio.ReadOnly
import Petix.Proof.Stdio.Copying
import Petix.Proof.Exec.Image
import Petix.Proof.Mem.Break
import Petix.Proof.Exec.Failures
import Petix.Proof.Exec.Bounds
import Petix.Proof.Tmpfs.Kinds
import Petix.Proof.Shell.Descriptors
import Petix.Proof.Shell.Children
import Petix.Proof.Tmpfs.Overruns
import Petix.Proof.Proc.Cloexec
import Petix.Proof.Tty.Front
import Petix.Proof.Shell.Strtok
import Petix.Proof.Printf
import Petix.Proof.Paging.Framebuffer
import Petix.Proof.Terminal.Renditions
import Petix.Proof.Stdio.Characters
