import ShardListener.Nack.System
import ShardListener.Worker.Process

namespace Node

open Worker

-- What happens to a worker and to the tracker that it shares with others: a datagram arrives, off
-- the wire or re-injected; the ticker of its buffer fires; the tracker sweeps or a NACK ends;
-- another worker calls the tracker.
inductive Event
  | datagram (env : Env) (raw : Bytes)
  | tick (env : Env)
  | tracker (op : Nack.Op)

def react (wire : Wire) (cfg : Settings) (n : Node) : Event → Node
  | .datagram env raw => (n.processFrame wire cfg env raw).2
  | .tick env         => n.tick wire cfg env
  | .tracker op       =>
    { n with worker := { n.worker with tracker := n.worker.tracker.map (·.step cfg.nack op) } }

end Node
