import Cs352Proxy.State
import Cs352Proxy.Base.Scan

/-!
# Config

The configuration loop of `main`: `fgets` cuts the file into lines, `strtok` takes the keyword off
each line, and the branch for the keyword takes the tokens it needs.

* Strings are lists of bytes without the terminator. `atoi` is `(int) strtol(s, NULL, 10)` with a
  64-bit `long`.
* A pointer local holds the string it points to, `none` while it was never set. The list
  `plist *head` is a list of its nodes: `LL_APPEND` adds at its end.
* A `NULL` token handed to `strcmp`, `strlen`, `strcpy` or `atoi` ends the program.
-/

namespace Cs352Proxy

open Base

/-- `LINE_MAX` of `limits.h`. -/
def lineMax : Nat := 2048

def space : U8 := 32

def newline : U8 := 10

/-- The bytes of an ASCII text. -/
def ascii (text : String) : Buf := text.toList.map fun c => BitVec.ofNat 8 c.toNat

/-- The delimiters `" "`, with which the keyword is taken. -/
def isSpace (b : U8) : Bool := b = space

/-- The delimiters `" \n"`, with which the arguments are taken. -/
def isBreak (b : U8) : Bool := b = space || b = newline

/-! ## Numbers -/

/-- `isspace` in the C locale. -/
def isWhite (b : U8) : Bool := b = space || (9 ≤ b && b ≤ 13)

def isDigit (b : U8) : Bool := 48 ≤ b && b ≤ 57

/-- The number that the digits at the start of `s` spell, 0 if there are none. -/
def decimal (s : Buf) : Nat := (s.takeWhile isDigit).foldl (fun n b => 10 * n + (b.toNat - 48)) 0

/-- `strtol(s, NULL, 10)`: a number out of range becomes the nearest `long`. -/
def strtol (s : Buf) : Int :=
  match s.dropWhile isWhite with
  | [] => 0
  | b :: bs =>
    if b = 45 then max (-2 ^ 63) (-decimal bs)
    else if b = 43 then min (2 ^ 63 - 1) (decimal bs)
    else min (2 ^ 63 - 1) (decimal (b :: bs))

def atoi (s : Buf) : Int := (strtol s).bmod (2 ^ 32)

/-! ## Keywords -/

inductive Keyword where
  | listenPort
  | linkPeriod
  | linkTimeout
  | peer
  | quitAfter
  | tapDevice
  | globalSecretKey
  | peerKey
deriving DecidableEq

namespace Keyword

def text : Keyword → Buf
  | listenPort => ascii "listenPort"
  | linkPeriod => ascii "linkPeriod"
  | linkTimeout => ascii "linkTimeout"
  | peer => ascii "peer"
  | quitAfter => ascii "quitAfter"
  | tapDevice => ascii "tapDevice"
  | globalSecretKey => ascii "globalSecretKey"
  | peerKey => ascii "peerKey"

/-- In the order `main` compares them. -/
def all : List Keyword :=
  [listenPort, linkPeriod, linkTimeout, peer, quitAfter, tapDevice, globalSecretKey, peerKey]

/-- The first branch of `main` whose `strcmp` succeeds. -/
def parse (pch : Buf) : Option Keyword := all.find? fun k => pch = k.text

theorem parse_text (k : Keyword) : parse k.text = some k := by cases k <;> decide

theorem text_of_parse {pch : Buf} {k : Keyword} (h : parse pch = some k) : pch = k.text := by
  have hk := List.find?_some h
  simpa using hk

end Keyword

/-! ## The loop -/

/-- `plist`. -/
structure Peer where
  port : Int
  IP : Buf
deriving DecidableEq

/-- What the loop assigns: globals, fields of `my_proxy_info`, locals of `main`. -/
structure Config where
  linkPeriod : Int
  linkTimeout : Int
  localPort : Int
  portno : U16
  listenPort : Int
  remotePort : Int
  quitAfter : Int
  addr : Option Buf
  tapDevice : Option Buf
  globalSecretKey : Option Buf
  macaddr : Option Buf
  peerKey : Option Buf
  head : List Peer
deriving DecidableEq

/-- The globals start as zero and `NULL`; the locals and `my_proxy_info` hold what was there. -/
def Config.start (garbage : Config) : Config :=
  { garbage with linkPeriod := 0, linkTimeout := 0, localPort := 0, head := [] }

/-- How the loop ends before the end of the file. -/
inductive Stop where
  /-- `perror("file is not formatted correctly\n")`. -/
  | rejected
  /-- A library function read through a `NULL` token. -/
  | nullToken
deriving DecidableEq

/-- A branch that takes one token. -/
def takeOne (rest : Buf) (record : Buf → Config) : Except Stop Config :=
  match strtok isBreak rest with
  | none => .error .nullToken
  | some (pch, _) => .ok (record pch)

/-- A branch that takes two tokens. -/
def takeTwo (rest : Buf) (record : Buf → Buf → Config) : Except Stop Config :=
  match strtok isBreak rest with
  | none => .error .nullToken
  | some (pch, rest) => takeOne rest (record pch)

/-- The body of the loop for the string in `linep`. -/
def configLine (linep : Buf) (cfg : Config) : Except Stop Config :=
  match strtok isSpace linep with
  | none => .error .nullToken
  | some (pch, rest) =>
    match Keyword.parse pch with
    | some .listenPort => takeOne rest fun pch =>
      { cfg with
        listenPort := atoi pch
        localPort := atoi pch
        portno := BitVec.ofInt 16 (atoi pch) }
    | some .linkPeriod => takeOne rest fun pch => { cfg with linkPeriod := atoi pch }
    | some .linkTimeout => takeOne rest fun pch => { cfg with linkTimeout := atoi pch }
    | some .peer => takeTwo rest fun addr pch =>
      { cfg with
        addr := some addr
        remotePort := atoi pch
        head := cfg.head ++ [{ port := atoi pch, IP := addr }] }
    | some .quitAfter => takeOne rest fun pch => { cfg with quitAfter := atoi pch }
    | some .tapDevice => takeOne rest fun pch => { cfg with tapDevice := some pch }
    -- this branch copies the token it has, the keyword
    | some .globalSecretKey => .ok { cfg with globalSecretKey := some pch }
    | some .peerKey => takeTwo rest fun macaddr pch =>
      { cfg with macaddr := some macaddr, peerKey := some pch }
    | none => .error .rejected

/-- The loop over what `fgets` puts into `linep`, call after call. -/
def configLoop : List Buf → Config → Except Stop Config
  | [], cfg => .ok cfg
  | linep :: lines, cfg =>
    match configLine (cstr linep) cfg with
    | .error stop => .error stop
    | .ok cfg' => configLoop lines cfg'

/-- The lines `main` reads from the file. -/
def linesRead (file : Buf) : List Buf := linesOf newline lineMax file

/-- What the loop leaves behind when it starts from `cfg`. -/
def readConfig (file : Buf) (cfg : Config) : Except Stop Config := configLoop (linesRead file) cfg

theorem configLoop_cons {linep : Buf} {cfg cfg' : Config} (h : configLine (cstr linep) cfg = .ok cfg')
    (lines : List Buf) : configLoop (linep :: lines) cfg = configLoop lines cfg' := by
  simp only [configLoop, h]

/-- Every byte of the file is in one of the lines read. -/
theorem flatten_linesRead (file : Buf) : (linesRead file).flatten = file :=
  flatten_linesOf (by decide) file

/-! ## The branches on tokens -/

theorem takeOne_eq (rest : Buf) (record : Buf → Config) :
    takeOne rest record =
      match tokens isBreak rest with
      | [] => .error .nullToken
      | pch :: _ => .ok (record pch) := by
  rw [tokens_eq_strtok, takeOne]
  cases strtok isBreak rest <;> rfl

theorem takeTwo_eq (rest : Buf) (record : Buf → Buf → Config) :
    takeTwo rest record =
      match tokens isBreak rest with
      | pch :: pch' :: _ => .ok (record pch pch')
      | _ => .error .nullToken := by
  rw [tokens_eq_strtok, takeTwo]
  cases strtok isBreak rest with
  | none => rfl
  | some r =>
    simp only [takeOne_eq]
    cases tokens isBreak r.2 <;> rfl

end Cs352Proxy
