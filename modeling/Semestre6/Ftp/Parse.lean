/-
The client's command lines (parse.c).

- `splitInWords`: the loop of `split_in_words`, with the word being read as an argument;
- `mots_non_vides`: no word is empty, so the argument of a command is never sent as an empty message;
- `cmdToInt`, `noEndofline`: as in the source.
-/
import Semestre6.Ftp.Define

namespace Semestre6.Ftp.Parse

/-- a space or a tab -/
def Blanc (c : UInt8) : Prop := c = 32 ∨ c = 9

/-- `<`, `>`, `|` or `&` -/
def Operateur (c : UInt8) : Prop := c = 60 ∨ c = 62 ∨ c = 124 ∨ c = 38

/-- what ends a word: `&` does not -/
def FinDeMot (c : UInt8) : Prop := Blanc c ∨ c = 60 ∨ c = 62 ∨ c = 124

instance (c : UInt8) : Decidable (Blanc c) := by unfold Blanc; infer_instance
instance (c : UInt8) : Decidable (Operateur c) := by unfold Operateur; infer_instance
instance (c : UInt8) : Decidable (FinDeMot c) := by unfold FinDeMot; infer_instance

def ajouteMot (w : Octets) (tab : List Octets) : List Octets := if w = [] then tab else w :: tab

/-- `w` is the word being read, empty between two words -/
def decoupe (w : Octets) : Octets → List Octets
  | [] => ajouteMot w []
  | c :: cur =>
    if w ≠ [] ∧ ¬FinDeMot c then decoupe (w ++ [c]) cur
    else if Blanc c then ajouteMot w (decoupe [] cur)
    else if Operateur c then ajouteMot w ([c] :: decoupe [] cur)
    else ajouteMot w (decoupe [c] cur)

def splitInWords (line : Octets) : List Octets := decoupe [] line

/-- the last byte goes, be it a newline or not -/
def noEndofline (cmd : Octets) : Octets := cmd.dropLast

def cmdToInt (cmd : Octets) : ℤ :=
  if cmd = octets "get" then Code.get
  else if cmd = octets "exit" ∨ cmd = octets "quit" ∨ cmd = octets "bye" then Code.exit
  else if cmd = octets "ls" then Code.ls
  else if cmd = octets "pwd" then Code.pwd
  else if cmd = octets "host" then Code.host
  else if cmd = octets "cd" then Code.cd
  else if cmd = octets "rm" then Code.rm
  else if cmd = octets "mkdir" then Code.mkdir
  else if cmd = octets "put" then Code.put
  else Code.error

theorem ajouteMot_ne {w m : Octets} {tab : List Octets} (h : m ∈ ajouteMot w tab) : (m = w ∧ w ≠ []) ∨ m ∈ tab := by
  unfold ajouteMot at h
  split_ifs at h with hw
  · exact Or.inr h
  · rcases List.mem_cons.1 h with h | h
    · exact Or.inl ⟨h, hw⟩
    · exact Or.inr h

theorem decoupe_ne {w cur m : Octets} (h : m ∈ decoupe w cur) : m ≠ [] := by
  induction cur generalizing w with
  | nil =>
    rcases ajouteMot_ne h with ⟨rfl, hw⟩ | h
    · exact hw
    · simp at h
  | cons c cur ih =>
    unfold decoupe at h
    split_ifs at h
    · exact ih h
    · rcases ajouteMot_ne h with ⟨rfl, hw⟩ | h
      · exact hw
      · exact ih h
    · rcases ajouteMot_ne h with ⟨rfl, hw⟩ | h
      · exact hw
      · rcases List.mem_cons.1 h with rfl | h
        · simp
        · exact ih h
    · rcases ajouteMot_ne h with ⟨rfl, hw⟩ | h
      · exact hw
      · exact ih h

/-- no word is empty -/
theorem mots_non_vides {line m : Octets} (h : m ∈ splitInWords line) : m ≠ [] := decoupe_ne h

example : splitInWords (octets "get  a&b>c") = [octets "get", octets "a&b", octets ">", octets "c"] := by decide

end Semestre6.Ftp.Parse
