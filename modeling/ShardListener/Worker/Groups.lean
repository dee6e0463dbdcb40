import Mathlib.Data.Finset.Basic
import ShardListener.Objects.Basic

namespace Worker

-- Whether the kernel accepts a join of a group, and whether it accepts that the group is left.
structure Netjoin where
  join  : IP → Bool
  leave : IP → Bool

inductive GroupError
  | notRunning | badAddress | syscall
deriving DecidableEq

-- The part of a worker that the multicast joins belong to. `running` stands for an open `joinFd`.
structure Groups where
  running      : Bool := false
  joinedGroups : Finset IP := ∅
deriving DecidableEq

namespace Groups

variable (sys : Netjoin)

def addGroup (g : Groups) (group : IP) : Except GroupError Groups :=
  if ¬g.running then .error .notRunning
  else if group ∈ g.joinedGroups then .ok g
  else if sys.join group then .ok { g with joinedGroups := insert group g.joinedGroups }
  else .error .syscall

def removeGroup (g : Groups) (group : IP) : Except GroupError Groups :=
  if ¬g.running then .error .notRunning
  else if group ∉ g.joinedGroups then .ok g
  else if sys.leave group then .ok { g with joinedGroups := g.joinedGroups.erase group }
  else .error .syscall

-- One turn of the loop in `Run` that joins the configured groups. An address that is not an IPv6
-- address, or a group that cannot be joined, ends the worker.
def joinConfigured (g : Groups) : Option IP → Except GroupError Groups
  | none    => .error .badAddress
  | some ga =>
    if sys.join ga then .ok { g with joinedGroups := insert ga g.joinedGroups } else .error .syscall

-- What `Run` does before it receives.
def run (groups : List (Option IP)) : Except GroupError Groups :=
  groups.foldlM (joinConfigured sys) { running := true }

end Groups
end Worker
