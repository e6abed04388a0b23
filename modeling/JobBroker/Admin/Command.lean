import JobBroker.Text.Blank
import JobBroker.Text.Numeral

/-!
# Admin commands

A command is one line of text. Its first word, in either case, names it.
-/

namespace JobBroker

inductive AdminCommand
  | status
  | priorityStatus
  | workers
  /-- Without a number the queue has no limit. -/
  | maxQueue (functionName : String) (size : Option Nat)
  | version
  | shutdown
  | unknown (line : String)
deriving DecidableEq, Repr

namespace AdminCommand

open Text

def parse (line : String) : AdminCommand :=
  match words line.toList with
  | [] => unknown ""
  | command :: arguments =>
    let name := String.ofList (command.map Char.toLower)
    if name = "status" then status
    else if name = "priority-status" then priorityStatus
    else if name = "workers" then workers
    else if name = "version" then version
    else if name = "shutdown" then shutdown
    else if name = "maxqueue" then
      match arguments with
      | [] => unknown line
      | [f] => maxQueue (String.ofList f) none
      | f :: size :: _ =>
        match readUnsigned UInt64.size size with
        | none => unknown line
        | some n => maxQueue (String.ofList f) (some n)
    else unknown line

end AdminCommand

end JobBroker
