import HookGen.Text.Basic

/-!
Computations that take notes on their way. A failure keeps the notes that were taken before it.
-/

namespace HookGen

structure Traced (ν ε α : Type) where
  notes : List ν
  outcome : Except ε α

namespace Traced

variable {ν ε α β : Type}

def done (a : α) : Traced ν ε α := ⟨[], .ok a⟩

def fail (e : ε) : Traced ν ε α := ⟨[], .error e⟩

def note (n : ν) : Traced ν ε Unit := ⟨[n], .ok ()⟩

def andThen (first : Traced ν ε α) (next : α → Traced ν ε β) : Traced ν ε β :=
  match first.outcome with
  | .error e => ⟨first.notes, .error e⟩
  | .ok a => ⟨first.notes ++ (next a).notes, (next a).outcome⟩

instance : Monad (Traced ν ε) where
  pure := done
  bind := andThen

def ofExcept : Except ε α → Traced ν ε α
  | .ok a => done a
  | .error e => fail e

-- The same computation with its notes and its failure told in other words.
def retell {ν' ε' : Type} (onNote : ν → Option ν') (onError : ε → ε') (x : Traced ν ε α) :
    Traced ν' ε' α :=
  ⟨x.notes.filterMap onNote, x.outcome.mapError onError⟩

end Traced

-- How important a message of the log is.
inductive Level
  | debug
  | info
  | warning
  | error
  deriving DecidableEq, Repr

structure LogRecord where
  level : Level
  text : Text
  deriving DecidableEq, Repr

abbrev Logged (ε α : Type) := Traced LogRecord ε α

def logDebug {ε : Type} (text : Text) : Logged ε Unit := Traced.note ⟨.debug, text⟩

def logInfo {ε : Type} (text : Text) : Logged ε Unit := Traced.note ⟨.info, text⟩

def logWarning {ε : Type} (text : Text) : Logged ε Unit := Traced.note ⟨.warning, text⟩

end HookGen
