/-
# `Bleep.BL2.Message` — messages between peers, and their types

A message is made by a handler, written to a byte string by the archive and read
back by the archive of the receiver.  The archive is Boost's, a parameter: two
functions, of which a result about the wire asks that the second undoes the
first on the messages sent (`Archive.Faithful`).

`P` is the type of peer ids, `O` the type of message objects.
-/
import Bleep.Fault

namespace Bleep

variable {P O : Type}

abbrev MessageType := String

structure Message (P O : Type) where
  src : P
  dest : P
  type : MessageType
  ptrToObj : Option O
  messageId : String
  deriving DecidableEq

/-- `Message(src, dest, type)`; `messageId` is the hash of the three and of the
clock. -/
def Message.make (src dest : P) (type : MessageType) (messageId : String) : Message P O :=
  { src, dest, type, ptrToObj := none, messageId }

def Message.setSource (msg : Message P O) (src : P) : Message P O := { msg with src }

/-- `type.find(s, 0) == 0`. -/
def MessageType.startsWith (type : MessageType) (s : String) : Bool :=
  s.toList.isPrefixOf type.toList

/-- The types `RecvHandler` lists; it asserts that a message is of one of them. -/
def MessageType.listed (type : MessageType) : Bool :=
  type == "notifyPeerId" || type == "GETADDR" || type == "ADDR" || type.startsWith "TXGOSSIP" ||
    type.startsWith "PING" || type.startsWith "PONG" || type.startsWith "POWBLOCK"

/-- `binary_oarchive` and `binary_iarchive` on a `shared_ptr<Message>`.  Reading
throws (`none`), or gives a null pointer (`some none`), or a message. -/
structure Archive (P O : Type) where
  serialize : Message P O → List UInt8
  deserialize : List UInt8 → Option (Option (Message P O))

/-- The archive reads what it wrote. -/
def Archive.Faithful (ar : Archive P O) (msg : Message P O) : Prop :=
  ar.deserialize (ar.serialize msg) = some (some msg)

end Bleep
