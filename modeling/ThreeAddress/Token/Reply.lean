import ThreeAddress.Token.Run

namespace ThreeAddress

/-- The answer to one try to read the next byte. -/
inductive Reply where
  | byte (b : UInt8)
  | finish
  | interrupted
  | failed (reason : String)
  deriving DecidableEq, Repr

/-- What can be read through the answers: the bytes up to the end or up to a fault that lasts. -/
def Source.ofReplies : List Reply → Source
  | [] | .finish :: _ => .ofBytes []
  | .failed reason :: _ => ⟨[], some reason⟩
  | .interrupted :: later => ofReplies later
  | .byte b :: later => { ofReplies later with bytes := b :: (ofReplies later).bytes }

end ThreeAddress
