import HashedBroker.Server

/-!
# The broker as a machine

A task is one connection: it waits for a frame, runs the part of `serve_socket` that answers it and
waits again. A frame comes with the reading of the clock under which its message is verified. The
writers of the channels are the outside world.
-/
namespace HashedBroker.Sessions
open AtomicPrograms ReactiveTasks Server

/-- A second byte that may follow a leading byte. -/
def secondByte (lead b : UInt8) : Bool :=
  if lead = 0xE0 then 0xA0 ≤ b && b ≤ 0xBF
  else if lead = 0xED then 0x80 ≤ b && b ≤ 0x9F
  else if lead = 0xF0 then 0x90 ≤ b && b ≤ 0xBF
  else if lead = 0xF4 then 0x80 ≤ b && b ≤ 0x8F
  else 0x80 ≤ b && b ≤ 0xBF

def continuationByte (b : UInt8) : Bool := 0x80 ≤ b && b ≤ 0xBF

def low (b : UInt8) (m : ℕ) : ℕ := b.toNat % m

/-- `String::from_utf8_lossy`: the longest start of a sequence that cannot be completed becomes one
replacement character. -/
def utf8Lossy : Bytes → List Char
  | [] => []
  | a :: r =>
    if a < 0x80 then Char.ofNat a.toNat :: utf8Lossy r
    else if 0xC2 ≤ a && a ≤ 0xDF then
      match r with
      | b :: r₁ =>
        if continuationByte b then Char.ofNat (low a 32 * 64 + low b 64) :: utf8Lossy r₁
        else '\uFFFD' :: utf8Lossy (b :: r₁)
      | [] => ['\uFFFD']
    else if 0xE0 ≤ a && a ≤ 0xEF then
      match r with
      | b :: r₁ =>
        if secondByte a b then
          match r₁ with
          | c :: r₂ =>
            if continuationByte c then
              Char.ofNat ((low a 16 * 64 + low b 64) * 64 + low c 64) :: utf8Lossy r₂
            else '\uFFFD' :: utf8Lossy (c :: r₂)
          | [] => ['\uFFFD']
        else '\uFFFD' :: utf8Lossy (b :: r₁)
      | [] => ['\uFFFD']
    else if 0xF0 ≤ a && a ≤ 0xF4 then
      match r with
      | b :: r₁ =>
        if secondByte a b then
          match r₁ with
          | c :: r₂ =>
            if continuationByte c then
              match r₂ with
              | d :: r₃ =>
                if continuationByte d then
                  Char.ofNat (((low a 8 * 64 + low b 64) * 64 + low c 64) * 64 + low d 64) ::
                    utf8Lossy r₃
                else '\uFFFD' :: utf8Lossy (d :: r₃)
              | [] => ['\uFFFD']
            else '\uFFFD' :: utf8Lossy (c :: r₂)
          | [] => ['\uFFFD']
        else '\uFFFD' :: utf8Lossy (b :: r₁)
      | [] => ['\uFFFD']
    else '\uFFFD' :: utf8Lossy r

/-- What the stream of a socket yields; `failed` is an error or its end. -/
inductive Frame
  | text (s : String)
  | binary (bytes : Bytes)
  | ping
  | pong
  | close
  | failed

def Frame.payload : Frame → Option String
  | text s => some s
  | binary bytes => some (String.ofList (utf8Lossy bytes))
  | _ => none

inductive Phase
  | absent
  | connected (addr : Registry.SocketAddr)
  | registering (addr : Registry.SocketAddr) (text : Option String) (now : UnixTime)
  | pumping (pubkey : String)
  | handling (pubkey text : String) (now : UnixTime)
  | closing (pubkey : String)
  | ended

inductive Input
  | connect (addr : Registry.SocketAddr)
  | frame (f : Frame) (now : UnixTime)

/-- A close frame, an error and the end of the stream leave the loop; pings stay in it. -/
def start (crates : Crates) (hasDb : Bool) (t : ℕ) : Phase → Input → Option (Phase × Work Outcome)
  | .absent, .connect addr => some (.connected addr, pure .finished)
  | .connected addr, .frame f now =>
    some (.registering addr f.payload now, register crates hasDb t now addr f.payload)
  | .pumping pubkey, .frame f now =>
    match f with
    | .close | .failed => some (.closing pubkey, cleanup pubkey)
    | .ping | .pong => some (.pumping pubkey, pure .finished)
    | .text s => some (.handling pubkey s now, pump crates hasDb t now pubkey s)
    | .binary bytes =>
      let s := String.ofList (utf8Lossy bytes)
      some (.handling pubkey s now, pump crates hasDb t now pubkey s)
  | _, _ => none

def finish : Phase → Outcome → Phase
  | .registering .., .registered pubkey => .pumping pubkey
  | .registering .., _ => .ended
  | .handling pubkey .., _ => .pumping pubkey
  | .closing _, _ => .ended
  | phase, _ => phase

def broker (crates : Crates) (hasDb : Bool) :
    Machine ℕ Op Res Env Broker Phase Input Outcome Broker.WriterEvent where
  exec := Broker.exec crates
  start := start crates hasDb
  finish := finish
  disturb x b := b.writerStep x

abbrev BrokerConfig := Config ℕ Op Res Broker Phase Outcome

abbrev BrokerEvent := Event ℕ Op Res Input Broker.WriterEvent

/-- The broker before its first connection. -/
def fresh (db : Database.Db ℕ) : BrokerConfig := ⟨.initial db, fun _ => .waiting .absent⟩

theorem fresh_idle (db : Database.Db ℕ) : Idle (fresh db) := fun _ => ⟨.absent, rfl⟩

end HashedBroker.Sessions
