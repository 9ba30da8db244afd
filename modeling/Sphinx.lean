import Sphinx.Lib.BigEndian
import Sphinx.Lib.Pairing
import Sphinx.Common.Types
import Sphinx.Lib.UndoLog
import Sphinx.State.Object
import Sphinx.State.StateDB
import Sphinx.Rlp.Encode
import Sphinx.Rlp.Stream
import Sphinx.Rlp.Decode
import Sphinx.Rlp.Canonical
import Sphinx.Merkle.Tree
import Sphinx.Types.ProofState
import Sphinx.Types.DeriveSha
import Sphinx.State.Commit
import Sphinx.Chain.Canonical
import Sphinx.Chain.Store
import Sphinx.Chain.HeaderMode
import Sphinx.Chain.BlockMode
import Sphinx.Chain.SetHead
import Sphinx.Chain.Modes
import Sphinx.Lib.Broadcast
import Sphinx.Worker.Proof
import Sphinx.Worker.Verify
import Sphinx.Worker.Invariant
import Sphinx.Worker.Attribution
import Sphinx.Merkle.Path
import Sphinx.Rlp.Raw
import Sphinx.State.Copy
import Sphinx.Txpool.Pool
import Sphinx.Bloombits.Matcher
import Sphinx.Trie.Encoding
import Sphinx.Trie.Node
import Sphinx.Trie.Hasher
import Sphinx.P2p.Handshake
import Sphinx.Trie.Denote
import Sphinx.Trie.Flags
import Sphinx.Trie.Ops
import Sphinx.Trie.Walk
import Sphinx.Trie.Commit
import Sphinx.Trie.Run
import Sphinx.Trie.Proof
import Sphinx.Trie.Iterator
import Sphinx.Trie.Sync
import Sphinx.Trie.SyncRun
import Sphinx.Chain.Keys
import Sphinx.Lib.MsbFirst
import Sphinx.Bloombits.Generator
import Sphinx.Bloombits.Scheduler
import Sphinx.Bitutil.Compress
import Sphinx.Hexutil.Hexutil
import Sphinx.P2p.Frame
import Sphinx.Rlp.Output
import Sphinx.Discover.Table
import Sphinx.Keystore.Cache
