import RemoteFileIO.Wire
import RemoteFileIO.DirTree
import RemoteFileIO.SerializeTree
import RemoteFileIO.Transport
import RemoteFileIO.Handlers
import RemoteFileIO.Payloads
import RemoteFileIO.Session
import RemoteFileIO.Listener
import RemoteFileIO.Shim
import RemoteFileIO.Refinement
