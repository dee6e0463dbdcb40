import ShardListener.Objects.Basic

-- The unicast forwarding sink over UDP.

def udpRedialMin : Duration :=
  Time.ms 250

def udpRedialMax : Duration :=
  Time.ms 5000

-- The errors of the system calls, as far as they are told apart.
inductive Errno
  | enetunreach | ehostunreach | enetdown | eaddrnotavail | einval
  | other (n : Nat)
deriving DecidableEq

-- The route to the destination has changed, and a fresh socket can help.
def isPathError : Errno → Bool
  | .other _ => false
  | _        => true

-- What `Send` returns: "egress: UDP dial %q: %w" or "egress: UDP write %q: %w".
inductive SendError
  | dial (err : Errno)
  | write (err : Errno)
deriving DecidableEq

-- `udpConn` says whether a socket is open.
structure Sender where
  udpConn    : Bool := false
  udpErr     : Option SendError := none
  udpRetryAt : Time := Time.zero
  udpBackoff : Duration := 0
  udpDialed  : Bool := false

namespace Sender

-- The state after a call, what it returns, and whether it has resolved and connected.
structure Result where
  sender : Sender
  err    : Option SendError
  dialed : Bool

variable (now : Time)

-- `outcome` is that of `ResolveUDPAddr` and `DialUDP`, if they are called.
def dialUDP (outcome : Option Errno) (s : Sender) : Result :=
  if s.udpBackoff > 0 ∧ now < s.udpRetryAt then ⟨s, s.udpErr, false⟩
  else
    match outcome with
    | none =>
      ⟨{ s with udpConn := true, udpErr := none, udpBackoff := 0, udpDialed := true }, none, true⟩
    | some e =>
      let err     := some (.dial e)
      let backoff := min (max (2 * s.udpBackoff) udpRedialMin) udpRedialMax
      ⟨{ s with udpErr := err, udpBackoff := backoff, udpRetryAt := now + backoff }, err, true⟩

def closeUDP (s : Sender) : Sender :=
  { s with udpConn := false }

-- `outcome` is that of the write, if there is a socket to write to.
def writeUDP (outcome : Option Errno) (s : Sender) : Sender × Option SendError :=
  match outcome with
  | none   => (s, none)
  | some e => (if isPathError e then s.closeUDP else s, some (.write e))

def sendUDP (dial write : Option Errno) (s : Sender) : Result :=
  let r := if s.udpConn then ⟨s, none, false⟩ else s.dialUDP now dial
  match r.err with
  | some e => { r with err := some e }
  | none   =>
    let (s, err) := r.sender.writeUDP write
    { r with sender := s, err := err }

end Sender

-- A `Send`, and what the network answers. The clock does not run backwards.
structure SendCall where
  elapsed : Nat
  dial    : Option Errno
  write   : Option Errno

-- A dial, and whether it is that of the first `Send` after a path loss.
structure Dial where
  time      : Time
  afterLoss : Bool
deriving DecidableEq

-- A sender over time, with the dials so far. `lost` says whether the last `Send` has lost the path.
structure Session where
  sender : Sender
  clock  : Time
  lost   : Bool
  dials  : List Dial

namespace Session

-- `New` dials at once.
def new (start : Time) (dial : Option Errno) : Session where
  sender := (Sender.dialUDP start dial {}).sender
  clock  := start
  lost   := false
  dials  := [⟨start, false⟩]

def losesPath : Option SendError → Bool
  | some (.write e) => isPathError e
  | _               => false

def send (x : Session) (c : SendCall) : Session :=
  let now := x.clock + c.elapsed
  let r   := x.sender.sendUDP now c.dial c.write
  { sender := r.sender
    clock  := now
    lost   := losesPath r.err
    dials  := if r.dialed then x.dials ++ [⟨now, x.lost⟩] else x.dials }

end Session
