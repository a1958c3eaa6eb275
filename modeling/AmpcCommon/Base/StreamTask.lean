import AmpcCommon.Base.Bytes
import AmpcCommon.Base.StreamNetwork

/-!
# Fallible programs over byte streams

A program of one party writes to its streams and reads from them, and returns an outcome; a failure ends it.
-/

namespace AmpcCommon

/-- A program of one party, on the streams `D`; it can note things down. -/
def StreamTask (D N α : Type) := StreamNetwork.Process D UInt8 N (Outcome α)

namespace StreamTask

variable {D N α β : Type}

/-- Go on after an outcome. -/
def andThen (f : α → StreamTask D N β) : Outcome α → StreamTask D N β
  | .ok a => f a
  | .error e => StreamNetwork.Process.pure (.error e)

instance : Monad (StreamTask D N) where
  pure a := StreamNetwork.Process.pure (.ok a)
  bind x f := StreamNetwork.Process.bind x (andThen f)

/-- A local computation that can fail. -/
def lift (o : Outcome α) : StreamTask D N α := StreamNetwork.Process.pure o

/-- `write_all` -/
def writeAll (d : D) (bs : Bytes) : StreamTask D N Unit := StreamNetwork.Process.write d bs (.pure (.ok ()))

/-- `read_exact` -/
def readExact (d : D) (n : Nat) : StreamTask D N Bytes :=
  StreamNetwork.Process.readExact d n [] fun bs => .pure (.ok bs)

/-- `read`, into a buffer of `max` bytes -/
def read (d : D) (max : Nat) : StreamTask D N Bytes := StreamNetwork.Process.read d max fun bs => .pure (.ok bs)

/-- Note something down. -/
def note (e : N) : StreamTask D N Unit := StreamNetwork.Process.note e (.pure (.ok ()))

/-- The program performs the operations, if it receives what they say, and returns `Ok(a)`. -/
def Performs (x : StreamTask D N α) (ops : List (StreamNetwork.Act D UInt8 N)) (a : α) : Prop :=
  StreamNetwork.Does x ops (.pure (.ok a))

theorem Performs.does_bind {x : StreamTask D N α} {ops ops' : List (StreamNetwork.Act D UInt8 N)} {a : α}
    (h : x.Performs ops a) {f : α → StreamTask D N β} {y : StreamTask D N β}
    (hf : StreamNetwork.Does (f a) ops' y) : StreamNetwork.Does (x >>= f : StreamTask D N β) (ops ++ ops') y :=
  StreamNetwork.Does.bind (f := andThen f) h hf

theorem Performs.bind {x : StreamTask D N α} {ops ops' : List (StreamNetwork.Act D UInt8 N)} {a : α} {b : β}
    (h : x.Performs ops a) {f : α → StreamTask D N β} (hf : (f a).Performs ops' b) :
    (x >>= f).Performs (ops ++ ops') b := h.does_bind hf

theorem performs_pure (a : α) : (pure a : StreamTask D N α).Performs [] a := .done trivial

theorem performs_lift {o : Outcome α} {a : α} (h : o = .ok a) : (lift o : StreamTask D N α).Performs [] a := by
  subst h
  exact .done trivial

theorem performs_writeAll (d : D) (bs : Bytes) :
    (writeAll d bs : StreamTask D N Unit).Performs (bs.map (.send d) ++ [.skip]) () :=
  StreamNetwork.Does.write (.done trivial)

theorem performs_readExact (d : D) (bs : Bytes) :
    (readExact d bs.length : StreamTask D N Bytes).Performs (bs.map (.recv d) ++ [.skip]) bs :=
  StreamNetwork.Does.readExact (.done trivial)

theorem performs_note (e : N) : (note e : StreamTask D N Unit).Performs [.note e] () := .note (.done trivial)

end StreamTask

end AmpcCommon
