import JsonTable.Cursor
import JsonTable.Format.Draft

/-!
# Compiling formats

A format is gone through once. The compiler keeps the levels and the line items that
are open, the rules collected so far, and where the next printed key goes. Line items
are added to the chain when they are opened, and get their rules there.

`Program.compile` records what it finds in a report: one error if there is no
program, and a warning if the program prints nothing.
-/

namespace JsonTable

namespace Format

namespace Cursor

/-- The position of the next token. Every round takes a byte, or a comment that has one. -/
def skipBlanks (source : Source) : (rounds position : Nat) → Scan Nat
  | 0, position => return position
  | rounds + 1, position => do
      if position < source.size then
        let b ← source.byte position
        if isBlank b then skipBlanks source rounds (position + 1)
        else if b = Byte.hash then
          skipBlanks source rounds ((source.find? Byte.lineFeed position).getD source.size)
        else return position
      else return position

def nextToken (source : Source) (position : Nat) : Scan Nat :=
  skipBlanks source (source.size - position) position

/-- How much of a format is looked at for an excerpt. -/
def excerptWindow : Nat :=
  40

def readKey (source : Source) (role : KeyRole) (position : Nat) : Scan (Bytes × Nat) := do
  let start ← nextToken source position
  if start < source.size then
    if (← source.byte start) = Byte.quote then
      match source.find? Byte.quote (start + 1) with
      | none =>
          let text ← source.text start excerptWindow
          throw (.error start source.size (Cause.unterminatedKey text).message)
      | some stop =>
          if stop = start + 1 then throw (.error start (stop + 1) Cause.emptyKey.message)
          else return (← source.text (start + 1) (stop - start - 1), stop + 1)
    else
      let text ← source.text start excerptWindow
      throw (.error start (start + 1) (Cause.expectedKey role text).message)
  else throw (.error start (start + 1) (Cause.endBeforeKey role).message)

/-- The position after the opening bracket that comes next. -/
def readOpen (source : Source) (opening : Opening) (key : Bytes) (position : Nat) :
    Scan Nat := do
  let start ← nextToken source position
  if start < source.size then
    let b ← source.byte start
    if b = Byte.openBracket then return start + 1
    else throw (.error start (start + 1) (Cause.expectedOpen opening key b).message)
  else throw (.error start (start + 1) (Cause.endBeforeOpen opening key).message)

end Cursor

/-- Where the next printed key goes. Line items are given by their index in the chain. -/
inductive Target where
  | root
  | tail
  | pre (index : Nat)
  | post (index : Nat)
deriving Repr, DecidableEq

/-- A line item that is open, and the context to go on with when it is closed. -/
structure OpenLineItem where
  index : Nat
  saved : List Level
  position : Nat
deriving Repr, DecidableEq

/-- A compiler under way. The context and the open items are listed innermost first. -/
structure Compiler where
  position : Nat := 0
  context : List Level := []
  openItems : List OpenLineItem := []
  root : List Rule := []
  tail : List Rule := []
  chain : List LineItem := []
  target : Target := .root
  closedLineItem : Bool := false
  printedCount : Nat := 0
deriving Repr, DecidableEq

namespace Compiler

def descendMember (source : Source) (compiler : Compiler) : Scan Compiler := do
  let start := compiler.position
  let (key, next) ← Cursor.readKey source .memberKey (start + 1)
  let next ← Cursor.readOpen source .member key next
  return { compiler with position := next, context := ⟨.member key, start⟩ :: compiler.context }

def descendElement (source : Source) (compiler : Compiler) : Scan Compiler := do
  let start := compiler.position
  let (key, next) ← Cursor.readKey source .arrayKey (start + 1)
  let next ← Cursor.readOpen source .array key next
  let (matchKey, next) ← Cursor.readKey source .matchKey next
  let next ← Cursor.nextToken source next
  if ← source.holds (· == Byte.equals) next then
    let (matchValue, next) ← Cursor.readKey source .matchValue (next + 1)
    let next ← Cursor.nextToken source next
    let next := if ← source.holds (· == Byte.openBracket) next then next + 1 else next
    return { compiler with
      position := next
      context := ⟨.element key matchKey matchValue, start⟩ :: compiler.context }
  else throw (.error next (next + 1) (Cause.expectedEquals key).message)

/-- Puts a line item into the innermost that is open, or else begins the chain with it. -/
def addLineItem (compiler : Compiler) (item : LineItem) : Except Misuse (List LineItem) :=
  match compiler.openItems with
  | outer :: _ => .ok (compiler.chain.take (outer.index + 1) ++ [item])
  | [] =>
      if compiler.chain.isEmpty then .ok [item]
      else .error (.chainComplete compiler.position)

/-- Opens a line item. None may be opened once one was closed. -/
def openLineItem (source : Source) (compiler : Compiler) : Scan Compiler := do
  let start := compiler.position
  let (key, next) ← Cursor.readKey source .lineItemKey (start + 1)
  if compiler.closedLineItem then
    throw (.error start next (Cause.secondLineItem key).message)
  let next ← Cursor.readOpen source .lineItem key next
  let chain ←
    (compiler.addLineItem ⟨pathOf compiler.context, key, [], []⟩).mapError Stop.misuse
  let index := chain.length - 1
  return { compiler with
    position := next
    context := []
    openItems := ⟨index, compiler.context, start⟩ :: compiler.openItems
    chain
    target := .pre index }

/-- Closes the innermost open level, or else the innermost open line item. -/
def close (compiler : Compiler) : Scan Compiler :=
  let next := compiler.position + 1
  match compiler.context, compiler.openItems with
  | _ :: context, _ => return { compiler with position := next, context }
  | [], item :: openItems =>
      return { compiler with
        position := next
        context := item.saved
        openItems
        target := openItems.head?.elim .tail fun outer => .post outer.index
        closedLineItem := true }
  | [], [] => throw (.error compiler.position next Cause.nothingToClose.message)

def addRule (compiler : Compiler) (rule : Rule) : Compiler :=
  match compiler.target with
  | .root => { compiler with root := compiler.root ++ [rule] }
  | .tail => { compiler with tail := compiler.tail ++ [rule] }
  | .pre index =>
      { compiler with
        chain := compiler.chain.modify index fun item => { item with pre := item.pre ++ [rule] } }
  | .post index =>
      { compiler with
        chain := compiler.chain.modify index fun item =>
          { item with post := item.post ++ [rule] } }

def print (source : Source) (compiler : Compiler) : Scan Compiler := do
  let (key, next) ← Cursor.readKey source .printedKey compiler.position
  let compiler := compiler.addRule ⟨pathOf compiler.context, key⟩
  return { compiler with position := next, printedCount := compiler.printedCount + 1 }

/-- Carries out the operation that begins with the byte at the position. -/
def step (source : Source) (compiler : Compiler) : Scan Compiler := do
  let b ← source.byte compiler.position
  if b = Byte.dot then compiler.descendMember source
  else if b = Byte.slash then compiler.descendElement source
  else if b = Byte.plus then compiler.openLineItem source
  else if b = Byte.closeBracket then compiler.close
  else if b = Byte.quote then compiler.print source
  else
    let text ← source.text compiler.position Cursor.excerptWindow
    throw (.error compiler.position (compiler.position + 1) (Cause.unknownByte b text).message)

/-- Carries out all operations from the position on, each of which takes at least one byte. -/
def steps (source : Source) : (rounds : Nat) → Compiler → Scan Compiler
  | 0, compiler => return compiler
  | rounds + 1, compiler => do
      let position ← Cursor.nextToken source compiler.position
      if position < source.size then
        steps source rounds (← step source { compiler with position })
      else return { compiler with position }

/-- Refuses to end with anything still open. -/
def checkAllClosed (source : Source) (compiler : Compiler) : Scan Unit :=
  match compiler.context, compiler.openItems with
  | [], [] => return ()
  | level :: _, openItems =>
      throw (.error level.position source.size
        (Cause.openLevels compiler.context.length level.step.key !openItems.isEmpty).message)
  | [], item :: _ =>
      let keys := compiler.openItems.reverse.filterMap fun item =>
        compiler.chain[item.index]?.map LineItem.key
      throw (.error item.position source.size (Cause.openLineItems keys).message)

/-- The compiler when it has gone through a text with nothing left open. -/
def finish (source : Source) : Scan Compiler := do
  let compiler ← steps source (source.size + 1) {}
  compiler.checkAllClosed source
  return compiler

end Compiler

end Format

namespace Program

def noFieldsWarning : Bytes :=
  Bytes.ascii "Format string prints no fields"

def compile (report : Report) (options : Options) : Except Misuse (Option Program × Report) := do
  let source := report.source
  let (compiler?, report) ← report.conclude (Format.Compiler.finish source)
  match compiler? with
  | none => return (none, report)
  | some compiler =>
      let report ←
        if compiler.printedCount = 0 then
          report.warning 0 source.size noFieldsWarning
        else pure report
      let format ← source.slice 0 source.size
      return (some ⟨format, options, compiler.root, compiler.chain, compiler.tail⟩, report)

def ofFormat (format : Bytes) (options : Options) : Except Refusal Program :=
  match compile (.ofBytes format) options with
  | .error cause => .error (.misuse cause)
  | .ok (some program, _) => .ok program
  | .ok (none, report) =>
      match report.firstError? with
      | some error => .error (.rejected error)
      | none => .error (.misuse .undiagnosedFormat)

end Program

end JsonTable
