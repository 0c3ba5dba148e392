import Aitos.Drivers.Console
import Aitos.Framework.Bytes
import Aitos.Framework.Hoare

/-!
# The shell

`shell/repl.c` and `shell/cmd.c`: the input loop, the parser that cuts the line in place and the
command table.  `line_buf` and `argv_buf` are static arrays, so every access is checked against
their size.  `dispatched` records the argument vectors handed to `shell_dispatch`; `stopped` says
that `shell_shutdown` was entered, which never returns.
-/

namespace Aitos.Shell

open Framework Drivers

def shellLineMax : Nat := 128

def argvMax : Nat := 16

def shellExit : Int := 1

inductive Fault where
  | outOfBounds
  | nullDeref
  | badFormat
  deriving DecidableEq, Repr

structure Repl where
  pos : Nat
  lineBuf : Bytes
  argvBuf : Nat → Option Nat
  console : Console
  dispatched : List (List (List UInt8))
  stopped : Bool

abbrev ShellM := Code Repl Fault

def printk (fmt : String) (args : List PrintkArg) : ShellM Unit := do
  match Drivers.printk fmt args (← get).console with
  | some console => modify fun s => { s with console }
  | none => throw .badFormat

def lineAt (p : Nat) : ShellM UInt8 := do
  if p < shellLineMax then return (← get).lineBuf p else throw .outOfBounds

def setLine (p : Nat) (c : UInt8) : ShellM Unit :=
  if p < shellLineMax then
    modify fun s => { s with lineBuf := Function.update s.lineBuf p c }
  else throw .outOfBounds

def argvAt (i : Nat) : ShellM (Option Nat) := do
  if i < argvMax then return (← get).argvBuf i else throw .outOfBounds

def setArgv (i : Nat) (p : Option Nat) : ShellM Unit :=
  if i < argvMax then
    modify fun s => { s with argvBuf := Function.update s.argvBuf i p }
  else throw .outOfBounds

def isBlank (c : UInt8) : Bool := c = 0x20 || c = 0x09

/-- `while (*p == ' ' || *p == '\t') p++`, with `n` bytes left in the buffer. -/
def skipBlanks : Nat → Nat → ShellM Nat
  | 0, _ => throw .outOfBounds
  | n + 1, p => do
      let c ← lineAt p
      if isBlank c then skipBlanks n (p + 1) else return p

/-- `while (*p && *p != ' ' && *p != '\t') p++`, with `n` bytes left in the buffer. -/
def skipWord : Nat → Nat → ShellM Nat
  | 0, _ => throw .outOfBounds
  | n + 1, p => do
      let c ← lineAt p
      if c ≠ 0 ∧ isBlank c = false then skipWord n (p + 1) else return p

/-- The token loop of `parse_line`, with `room = max_arg - 1 - argc`. -/
def parseTokens : Nat → Nat → Nat → ShellM Nat
  | 0, argc, p => do
      let _ ← lineAt p
      return argc
  | room + 1, argc, p => do
      let c ← lineAt p
      if c = 0 then return argc
      else do
        setArgv argc (some p)
        let p ← skipWord (shellLineMax - p) p
        let c ← lineAt p
        if c = 0 then return argc + 1
        else do
          setLine p 0
          let p ← skipBlanks (shellLineMax - (p + 1)) (p + 1)
          parseTokens room (argc + 1) p

def parseLine (maxArg : Nat) : ShellM Nat := do
  let p ← skipBlanks shellLineMax 0
  let argc ← parseTokens (maxArg - 1) 0 p
  setArgv argc none
  return argc

/-- The C string at `p`, with `n` bytes left in the buffer. -/
def cString : Nat → Nat → ShellM (List UInt8)
  | 0, _ => throw .outOfBounds
  | n + 1, p => do
      let c ← lineAt p
      if c = 0 then return []
      else do
        let cs ← cString n (p + 1)
        return c :: cs

def argString (i : Nat) : ShellM (List UInt8) := do
  match ← argvAt i with
  | some p => cString (shellLineMax - p) p
  | none => throw .nullDeref

/-- The strings `argv[i]`, `argv[i + 1]`, … as the callee sees them, `n` of them. -/
def argStrings : Nat → Nat → ShellM (List (List UInt8))
  | 0, _ => return []
  | n + 1, i => do
      let arg ← argString i
      let args ← argStrings n (i + 1)
      return arg :: args

inductive Handler where
  | help | clear | version | echo | uname | exit
  deriving DecidableEq, Repr

structure ShellCmd where
  name : String
  handler : Handler
  help : String

def shellCmds : List ShellCmd :=
  [⟨"help", .help, "show available commands"⟩,
   ⟨"clear", .clear, "clear the screen"⟩,
   ⟨"version", .version, "show AiTOS version"⟩,
   ⟨"echo", .echo, "echo arguments"⟩,
   ⟨"uname", .uname, "print system information"⟩,
   ⟨"exit", .exit, "leave shell and stop QEMU"⟩,
   ⟨"logout", .exit, "alias of exit"⟩]

def printHelpLines : List ShellCmd → ShellM Unit
  | [] => return ()
  | cmd :: cmds => do
      printk "  %s - %s\n" [.str (ascii cmd.name), .str (ascii cmd.help)]
      printHelpLines cmds

def shellPrintHelp : ShellM Unit := do
  printk "Available commands:\n" []
  printHelpLines shellCmds

/-- The loop of `cmd_echo` from argument `i` on. -/
def echoArgs : Nat → List (List UInt8) → ShellM Unit
  | _, [] => return ()
  | i, arg :: args => do
      if i > 1 then printk " " []
      printk "%s" [.str arg]
      echoArgs (i + 1) args

def cmdHelp : ShellM Int := do
  shellPrintHelp
  return 0

def cmdClear : ShellM Int := do
  modify fun s => { s with console := consoleClear s.console }
  return 0

def cmdVersion : ShellM Int := do
  printk "AiTOS 0.1.0-mvp (x86-64)\n" []
  return 0

def cmdEcho (argv : List (List UInt8)) : ShellM Int := do
  echoArgs 1 argv.tail
  printk "\n" []
  return 0

def cmdUname : ShellM Int := do
  printk "AiTOS\n" []
  return 0

def cmdExit : ShellM Int := return shellExit

def Handler.run (argv : List (List UInt8)) : Handler → ShellM Int
  | .help => cmdHelp
  | .clear => cmdClear
  | .version => cmdVersion
  | .echo => cmdEcho argv
  | .uname => cmdUname
  | .exit => cmdExit

def findCmd (name : List UInt8) : Option ShellCmd := shellCmds.find? fun cmd => name = ascii cmd.name

/-- `shell_dispatch`, on the argument strings. -/
def shellDispatch (argv : List (List UInt8)) : ShellM Int :=
  match argv with
  | [] => return 0
  | name :: _ =>
      if name = [] then return 0
      else
        match findCmd name with
        | some cmd => cmd.handler.run argv
        | none => do
            printk "aitos-sh: %s: command not found\n" [.str name]
            return -1

def printPrompt : ShellM Unit := printk "[aitos@localhost]$ " []

/-- The halted machine takes no further key. -/
def shellShutdown : ShellM Unit := do
  printk "logout\n" []
  modify fun s => { s with console := s.console.out 0xf4 0 }
  printk "AiTOS halted. Use Ctrl-A X to quit QEMU.\n" []
  modify fun s => { s with stopped := true }

def startLine : ShellM Unit := do
  modify fun s => { s with pos := 0 }
  printPrompt

def dispatchLine : ShellM Int := do
  let argc ← parseLine argvMax
  let argv ← argStrings argc 0
  modify fun s => { s with dispatched := s.dispatched ++ [argv] }
  shellDispatch argv

def enterKey : ShellM Unit := do
  let s ← get
  setLine s.pos 0
  printk "\n" []
  if 0 < s.pos then do
    let ret ← dispatchLine
    if ret = shellExit then shellShutdown else startLine
  else startLine

def interruptKey : ShellM Unit := do
  modify fun s => { s with pos := 0 }
  printk "^C\n" []
  printPrompt

def endOfInputKey : ShellM Unit := do
  printk "\n" []
  shellShutdown

def eraseKey : ShellM Unit := do
  let s ← get
  if 0 < s.pos then do
    modify fun s => { s with pos := s.pos - 1 }
    printk "\x08 \x08" []
  else return ()

def printableKey (ch : UInt8) : ShellM Unit := do
  let s ← get
  setLine s.pos ch
  modify fun s => { s with pos := s.pos + 1 }
  printk "%c" [.int ch.toUInt32]

/-- One turn of the loop of `shell_run`.  `char` is signed: a byte from 128 on is negative and
meets none of the conditions. -/
def shellKey (key : UInt8) : ShellM Unit := do
  let ch : UInt8 := if key = 0x0d then 0x0a else key
  let s ← get
  if ch = 4 ∧ s.pos = 0 then endOfInputKey
  else if ch = 3 then interruptKey
  else if ch = 0x0a then enterKey
  else if ch = 0x08 ∨ ch = 127 then eraseKey
  else if 32 ≤ ch ∧ ch ≤ 126 ∧ s.pos < shellLineMax - 1 then printableKey ch
  else return ()

/-- The loop of `shell_run` over the keys read so far. -/
def shellLoop : List UInt8 → ShellM Unit
  | [] => return ()
  | key :: keys => do
      let s ← get
      if s.stopped then return ()
      else do
        shellKey key
        shellLoop keys

def shellRun (keys : List UInt8) : ShellM Unit := do
  modify fun s => { s with console := consoleClear s.console, pos := 0 }
  printk "AiTOS Shell ready - type 'help' for commands\n" []
  printPrompt
  shellLoop keys

end Aitos.Shell
