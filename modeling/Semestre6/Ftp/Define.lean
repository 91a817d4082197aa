/-
Constants and data that the FTP programs share (define.h, parse.h, csapp.h) and the C conversions they rely on.

The opcodes of the commands and the codes of the replies travel as ints on the same sockets and overlap
(`Code.ok = Code.get`), so they stay ints here.

- `versInt`: the conversion of a file size (`off_t`) to an `int`; `versInt_eq`: exact below 2^31.
-/
import Mathlib.Data.UInt
import Semestre6.Lib.Octets

namespace Semestre6.Ftp

abbrev Octets := List UInt8

def maxline : ℕ := 8192

def inetAddrstrlen : ℕ := 16

namespace Code

/-! define.h -/

def slaveFinished : ℤ := 0
def clientCrashed : ℤ := 4
def clientCrashedDuringTransfert : ℤ := 2
def default : ℤ := 3
def ok : ℤ := 1
def errorOpen : ℤ := 2
def notImpemented : ℤ := 3

/-! parse.h -/

def get : ℤ := 1
def exit : ℤ := 0
def ls : ℤ := 3
def pwd : ℤ := 4
def host : ℤ := 5
def cd : ℤ := 6
def rm : ℤ := 7
def mkdir : ℤ := 8
def put : ℤ := 9
def rmr : ℤ := 10
def error : ℤ := -1

end Code

/-- what one `write` puts on a socket and one `read` takes from it: an int, or bytes -/
inductive Msg where
  | ent (v : ℤ)
  | octets (b : Octets)
deriving DecidableEq, Repr

/-- `write(fd, b, n)` of a run of bytes: nothing travels when it is empty -/
def ecrit (b : Octets) : List Msg := if b = [] then [] else [.octets b]

/-- a run of bytes of which `write` has only sent the first `n`: what it returns is not looked at -/
def Msg.coupe (n : ℕ) : Msg → Msg
  | .ent v => .ent v
  | .octets b => .octets (b.take n)

/-- what the system gives a process at the moment it asks: its files, and the slave's connection to a client -/
structure Disque where
  /-- the content of a file that `open` opens for reading -/
  lecture : Octets → Option Octets
  /-- `fstat` of that file succeeds -/
  stat : Octets → Bool
  /-- the content of a file that `open` opens for writing with O_CREAT, empty when it creates it -/
  ecriture : Octets → Option Octets
  /-- the content of a file that `open` opens for writing without creating it -/
  existant : Octets → Option Octets
  /-- the names that `readdir` gives for the current directory, when `opendir` succeeds -/
  liste : Option (List Octets)
  /-- `getcwd` -/
  cwd : Octets
  /-- `open_clientfd` succeeds; otherwise `Open_clientfd` ends the process -/
  connexion : Bool

/-- the bytes of a name written in the source -/
def octets (s : String) : Octets := s.toList.map Char.toUInt8

/-- the conversion of a size to an `int` of 32 bits -/
def versInt (n : ℕ) : ℤ := Int.bmod n (2 ^ 32)

theorem versInt_eq {n : ℕ} (h : n < 2 ^ 31) : versInt n = n := by
  unfold versInt
  rw [Int.bmod_def]
  omega

theorem versInt_le (n : ℕ) : versInt n ≤ n := by
  unfold versInt
  rw [Int.bmod_def]
  split_ifs <;> omega

theorem versInt_lt (n : ℕ) : versInt n < 2 ^ 31 := by
  unfold versInt
  rw [Int.bmod_def]
  split_ifs <;> omega

end Semestre6.Ftp
