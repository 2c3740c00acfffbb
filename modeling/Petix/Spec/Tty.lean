import Petix.Kernel.Tty
import Petix.Library.Ring
import Petix.Library.Transition

namespace Petix.Spec.Tty
open Library Kernel.Tty

def committed (t : PetixTty) : List Byte := Ring.contents ttyBuffLen t.fbase t.lbase t.buffer

def current (t : PetixTty) : List Byte := Ring.contents ttyBuffLen t.lbase t.loff t.buffer

structure Ordered (t : PetixTty) : Prop where
  fbase : t.fbase < ttyBuffLen
  lbase : t.lbase < ttyBuffLen
  loff : t.loff < ttyBuffLen
  cyclic : Ring.length ttyBuffLen t.fbase t.lbase + Ring.length ttyBuffLen t.lbase t.loff < ttyBuffLen

structure Editor where
  lines : List (List Byte)
  line : List Byte

def Editor.input (e : Editor) (seq : Seq) : Editor :=
  if seq.Erases then { e with line := e.line.dropLast }
  else if seq.first = 4#8 then ⟨e.lines ++ [e.line], []⟩
  else if seq.first = 10#8 then ⟨e.lines ++ [e.line ++ seq.bytes], []⟩
  else { e with line := e.line ++ seq.bytes }

def marked (lines : List (List Byte)) : List Byte := lines.flatMap (· ++ [sendChar])

def Editor.size (e : Editor) : Nat := (marked e.lines).length + e.line.length

structure Represents (t : PetixTty) (e : Editor) : Prop extends Ordered t where
  lines : committed t = marked e.lines
  line : current t = e.line

def Echoes (echo : Bool) (e : Editor) (seq : Seq) : Prop :=
  if seq.Erases then ∀ ch ∈ e.line.getLast?, ch.toNat < 128
  else seq.first ≠ 4#8 → echo = true → ∀ ch ∈ seq.bytes, ch.toNat < 128

def EchoesAll (echo : Bool) : Editor → List Seq → Prop
  | _, [] => True
  | e, seq :: calls => Echoes echo e seq ∧ EchoesAll echo (e.input seq) calls

def Seq.stored (seq : Seq) (icanon : Bool) : List Byte :=
  if seq.first ≠ 4#8 ∨ icanon = false then seq.bytes else []

def Seq.Completes (seq : Seq) (icanon : Bool) : Prop := seq.first = 10#8 ∨ seq.first = 4#8 ∨ icanon = false

instance (seq : Seq) (icanon : Bool) : Decidable (Seq.Completes seq icanon) := inferInstanceAs (Decidable (_ ∨ _))

def Fits (t : PetixTty) (seq : Seq) : Prop :=
  seq.Erases ∨ Ring.length ttyBuffLen t.fbase t.loff + (Seq.stored seq t.icanon).length +
    (if Seq.Completes seq t.icanon then 1 else 0) < ttyBuffLen

instance (t : PetixTty) (seq : Seq) : Decidable (Fits t seq) := inferInstanceAs (Decidable (_ ∨ _))

structure Intact (t t' : PetixTty) : Prop extends Ordered t' where
  sameFbase : t'.fbase = t.fbase
  sameBytes : Ring.contents ttyBuffLen t.fbase t.lbase t'.buffer = committed t
  still : committed t <+: committed t'

def sessions : System Session Event where
  initial s := s = ⟨petixTtyInit, .idle, []⟩
  step s a s' := next s a = some s'

def readOutcome (t : PetixTty) (count : Nat) (front : Byte) (early : List Seq) (events : List Event) :
    Option (PetixTty × List (Int × List Byte)) :=
  ((Event.read count front :: (early.map .input ++ Event.pass :: events)).foldlM next ⟨t, .idle, []⟩).map
    fun s => (s.tty, s.log)

def Roomy (s : Session) : Event → Prop
  | .input seq => Fits s.tty seq
  | .read count _ => 0 < count
  | .pass | .wake | .finish | .setFlags _ _ | .flush _ _ => True

structure Recorded where
  session : Session
  typed : List Seq

def Recorded.editor (r : Recorded) : Editor := r.typed.foldl Editor.input ⟨[], []⟩

def inputs : Event → List Seq
  | .input seq => [seq]
  | .read _ _ | .pass | .wake | .finish | .setFlags _ _ | .flush _ _ => []

def recorded : System Recorded Event where
  initial r := r = ⟨⟨petixTtyInit, .idle, []⟩, []⟩
  step r a r' := next r.session a = some r'.session ∧ r'.typed = r.typed ++ inputs a

def LineInput (r : Recorded) : Event → Prop
  | .input seq => Fits r.session.tty seq ∧ sendChar ∉ seq.bytes
  | .read count _ => 0 < count
  | .setFlags icanon _ => icanon = true
  | .flush _ _ => False
  | .pass | .wake | .finish => True

def wanted : Phase → Nat
  | .loop count _ _ => count
  | .idle | .waiting _ _ _ | .ending _ => 0

def OneLine (r : Recorded) : Event → Prop
  | .pass => min (wanted r.session.phase) (committed r.session.tty).length ≤
      ((committed r.session.tty).takeWhile (· ≠ sendChar)).length + 1
  | .input _ | .read _ _ | .wake | .finish | .setFlags _ _ | .flush _ _ => True

def LineByLine (r : Recorded) (a : Event) : Prop := LineInput r a ∧ OneLine r a

instance (r : Recorded) : (a : Event) → Decidable (LineInput r a)
  | .input _ => inferInstanceAs (Decidable (_ ∧ _))
  | .read _ _ => inferInstanceAs (Decidable (_ < _))
  | .setFlags _ _ => inferInstanceAs (Decidable (_ = _))
  | .flush _ _ => .isFalse id
  | .pass | .wake | .finish => .isTrue trivial

instance (r : Recorded) : (a : Event) → Decidable (OneLine r a)
  | .pass => inferInstanceAs (Decidable (_ ≤ _))
  | .input _ | .read _ _ | .wake | .finish | .setFlags _ _ | .flush _ _ => .isTrue trivial

instance (r : Recorded) (a : Event) : Decidable (LineByLine r a) := inferInstanceAs (Decidable (_ ∧ _))

def returned (call : Int × List Byte) : List Byte := call.2.take call.1.toNat

def InOneLine (lines : List (List Byte)) (delivered bytes : List Byte) : Prop :=
  ∃ before front rest after, lines = before ++ (front ++ bytes ++ rest) :: after ∧ delivered = before.flatten ++ front

structure ReadsLines (r : Recorded) : Prop where
  inOrder : r.session.log.flatMap returned <+: r.editor.lines.flatten
  unmarked : sendChar ∉ r.session.log.flatMap returned
  oneLine : ∀ earlier call later, r.session.log = earlier ++ call :: later → returned call ≠ [] →
    InOneLine r.editor.lines (earlier.flatMap returned) (returned call)

end Petix.Spec.Tty
