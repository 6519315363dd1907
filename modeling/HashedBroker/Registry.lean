import HashedBroker.Auth
import HashedBroker.KeyedTables
import HashedBroker.AtomicPrograms

/-!
# The registry of connected peers

`registry.rs`: who is connected, and the channel to write to. Each access to one of the two maps is
an atomic operation, and `insert` and `remove` are programs of them: other tasks may come between
the accesses.
-/
namespace HashedBroker.Registry
open KeyedTables AtomicPrograms Protocol

/-- A socket address, by its text. -/
abbrev SocketAddr := String

/-- `tx` is the connection whose outbound channel the sender writes to. -/
structure PeerHandle where
  pubkey : String
  handle : Option String
  addresses : PeerAddresses
  reflected : SocketAddr
  tx : ℕ
  deriving DecidableEq

structure PeerRegistry where
  byPubkey : Table String PeerHandle
  handleToPubkey : Table String String

inductive Access
  | insertHandle (handle pubkey : String)
  | insertPeer (peer : PeerHandle)
  | removePeer (pubkey : String)
  | getHandle (handle : String)
  | removeHandle (handle : String)
  | getPeer (pubkey : String)
  | containsPeer (pubkey : String)

abbrev Access.Result : Access → Type
  | removePeer _ => Option PeerHandle
  | getHandle _ => Option String
  | getPeer _ => Option PeerHandle
  | containsPeer _ => Bool
  | _ => Unit

namespace PeerRegistry

def empty : PeerRegistry := ⟨∅, ∅⟩

def exec (reg : PeerRegistry) : (a : Access) → a.Result × PeerRegistry
  | .insertHandle handle pubkey =>
    ((), { reg with handleToPubkey := reg.handleToPubkey.insert handle pubkey })
  | .insertPeer peer => ((), { reg with byPubkey := reg.byPubkey.insert peer.pubkey peer })
  | .removePeer pubkey =>
    (reg.byPubkey.lookup pubkey, { reg with byPubkey := reg.byPubkey.erase pubkey })
  | .getHandle handle => (reg.handleToPubkey.lookup handle, reg)
  | .removeHandle handle => ((), { reg with handleToPubkey := reg.handleToPubkey.erase handle })
  | .getPeer pubkey => (reg.byPubkey.lookup pubkey, reg)
  | .containsPeer pubkey => ((reg.byPubkey.lookup pubkey).isSome, reg)

def isOnline (reg : PeerRegistry) (pubkey : String) : Bool := (reg.byPubkey.lookup pubkey).isSome

theorem lookup_exec (reg : PeerRegistry) (a : Access) (pk : String) :
    (reg.exec a).2.byPubkey.lookup pk =
      match a with
      | .insertPeer peer => if pk = peer.pubkey then some peer else reg.byPubkey.lookup pk
      | .removePeer pubkey => if pk = pubkey then none else reg.byPubkey.lookup pk
      | _ => reg.byPubkey.lookup pk := by
  cases a with
  | insertPeer peer => exact lookup_insert_ite _ _ _ _
  | removePeer pubkey => exact lookup_erase_ite _ _ _
  | _ => rfl

end PeerRegistry

/-! ## The methods -/

abbrev Method (α : Type) := Prog Access Access.Result α

def access (a : Access) : Method a.Result := Prog.perform a

def insert (peer : PeerHandle) : Method Unit := do
  match peer.handle with
  | some handle => access (.insertHandle handle peer.pubkey)
  | none => pure ()
  access (.insertPeer peer)

/-- The index entry is cleared only if it still points at the removed peer; the check and the
removal are two accesses. -/
def remove (pubkey : String) : Method (Option PeerHandle) := do
  match ← access (.removePeer pubkey) with
  | none => pure none
  | some peer =>
    match peer.handle with
    | none => pure (some peer)
    | some handle =>
      match ← access (.getHandle handle) with
      | some entry =>
        if entry = peer.pubkey then
          access (.removeHandle handle)
          pure (some peer)
        else pure (some peer)
      | none => pure (some peer)

def get (pubkey : String) : Method (Option PeerHandle) := access (.getPeer pubkey)

def resolveHandle (handle : String) : Method (Option String) := access (.getHandle handle)

def isOnline (pubkey : String) : Method Bool := access (.containsPeer pubkey)

/-- One access for each key, in the order of the list. -/
def onlineSet : List String → Method (List (String × Bool))
  | [] => pure []
  | pk :: pks => do
    let online ← access (.containsPeer pk)
    let rest ← onlineSet pks
    pure ((pk, online) :: rest)

end HashedBroker.Registry
