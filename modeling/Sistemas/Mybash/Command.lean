import Mathlib.Data.List.Basic

/-! # Commands and pipelines

The values behind the abstract types of `command.c`.  The queues are lists; a pipeline is
generic in what it holds, so that it can hold plain commands or commands with the handle
of the object they live in.
-/

namespace Sistemas.Mybash

/-- A string of the source. -/
abbrev Text := List Char

/-- `struct scommand_s` -/
structure Scommand where
  cmd : List Text
  redirOut : Option Text
  redirIn : Option Text
  deriving DecidableEq

namespace Scommand

def new : Scommand := { cmd := [], redirOut := none, redirIn := none }

def pushBack (self : Scommand) (argument : Text) : Scommand :=
  { self with cmd := self.cmd ++ [argument] }

/-- `none` where the assertion fails. -/
def popFront (self : Scommand) : Option Scommand :=
  if self.cmd.isEmpty then none else some { self with cmd := self.cmd.tail }

def setRedirIn (self : Scommand) (filename : Option Text) : Scommand :=
  { self with redirIn := filename }

def setRedirOut (self : Scommand) (filename : Option Text) : Scommand :=
  { self with redirOut := filename }

def isEmpty (self : Scommand) : Bool := self.cmd.isEmpty

end Scommand

/-- `struct pipeline_s` -/
structure Pipeline (α : Type) where
  pipe : List α
  wait : Bool
  deriving DecidableEq

namespace Pipeline

variable {α β : Type}

def new : Pipeline α := { pipe := [], wait := true }

def pushBack (self : Pipeline α) (sc : α) : Pipeline α := { self with pipe := self.pipe ++ [sc] }

def setWait (self : Pipeline α) (w : Bool) : Pipeline α := { self with wait := w }

def length (self : Pipeline α) : Nat := self.pipe.length

def map (f : α → β) (self : Pipeline α) : Pipeline β :=
  { pipe := self.pipe.map f, wait := self.wait }

end Pipeline

end Sistemas.Mybash
