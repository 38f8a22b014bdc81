import UserLevelOs.Files.Progress

/-!
# What a read returns

Every byte of a file is the one stored there last.  The log of a run says which that is:
`lastStored` looks for the latest write to the same path that reported the position as
written.  Two spellings of a path that follow the same names from the root are one path.

## Main definitions

* `lastStored`.

## Main statements

* `TreeRun.byte_eq` — the bytes of a tree are the bytes last stored.
* `Run.read_lastStored` — so are the bytes a read returns.
-/

namespace UserLevelOs.Files

open UserLevelOs.Lib

/-- The byte the log has last stored at `pos` of the file at `place`, or zero.  A write
counts as far as its reply goes. -/
def lastStored (place : List Name) (pos : ℕ) : List Event → UInt8
  | [] => 0
  | ⟨.write path buffer _ offset _, reply⟩ :: log =>
    if canonical (strtokAll path) = place ∧ offset ≤ pos ∧ (pos : ℤ) < offset + reply.ret then
      buffer.getD (pos - offset) 0
    else lastStored place pos log
  | _ :: log => lastStored place pos log

/-- The byte at `pos` of what is at `place`. -/
def Tree.byte (t : Tree) (place : List Name) (pos : ℕ) : UInt8 :=
  match t place with
  | some (.file _ blocks) => fileByte blocks pos
  | _ => 0

section Reading

variable {t t' : Tree} {log : List Event} {c : Call} {r : Reply} {place : List Name} {pos : ℕ}

namespace Tree

theorem byte_of_file {size : ℕ} {blocks : ℕ → Option Bytes} (h : t place = some (.file size blocks)) :
    t.byte place pos = fileByte blocks pos := by
  rw [byte, h]

theorem byte_of_none (h : t place = none) : t.byte place pos = 0 := by
  rw [byte, h]

theorem byte_update_of_ne {place' : List Name} {item : Option Item} (h : place ≠ place') :
    Tree.byte (Function.update t place' item) place pos = t.byte place pos := by
  rw [byte, byte, Function.update_of_ne h]

theorem byte_update_same {size : ℕ} {blocks : ℕ → Option Bytes} :
    Tree.byte (Function.update t place (some (.file size blocks))) place pos = fileByte blocks pos :=
  byte_of_file (Function.update_self _ _ _)

/-- Entering a name changes no byte. -/
theorem Enters.byte_eq {path : List UInt8} {item : Item} {ret : ℤ} (h : t.Enters path item ret t')
    (hnew : ∀ t₀ : Tree, Tree.byte (Function.update t₀ place (some item)) place pos = 0) :
    t'.byte place pos = t.byte place pos := by
  cases h with
  | noParent => rfl
  | noRoom => rfl
  | shadowed => rfl
  | @entered parent h hdir hfree =>
    by_cases heq : place = climb parent (basename path)
    · rw [← heq] at hfree ⊢
      rw [hnew, byte_of_none hfree]
    · exact byte_update_of_ne heq

/-- One request: the bytes follow the log. -/
theorem Step.byte_eq (h : t.Step c r t') (hbyte : t.byte place pos = lastStored place pos log) :
    t'.byte place pos = lastStored place pos (⟨c, r⟩ :: log) := by
  cases h with
  | mkdir h =>
    refine (h.byte_eq fun t₀ => ?_).trans hbyte
    simp [Tree.byte]
  | create h =>
    refine (h.byte_eq fun t₀ => ?_).trans hbyte
    rw [byte_update_same]
    simp [fileByte]
  | readNothing => exact hbyte
  | read => exact hbyte
  | writeNothing =>
    rw [lastStored, if_neg, hbyte]
    rintro ⟨-, hlo, hhi⟩
    simp only [ENOENT] at hhi
    omega
  | @write path buffer size offset fileSize times blocks blocks' place' h hfile _ hlen hstores =>
    have hplace' : place' = canonical (strtokAll path) := resolve_eq_foldl h
    have hlength : (buffer.take (bytesStored size offset)).length = bytesStored size offset :=
      List.length_take_of_le hlen
    rw [lastStored, ← hplace']
    by_cases heq : place' = place
    · rw [← heq] at hbyte ⊢
      rw [byte_update_same, hstores.byte, hlength, ← byte_of_file hfile, hbyte]
      have hcast : (pos : ℤ) < offset + (bytesStored size offset : ℤ) ↔
          pos < offset + bytesStored size offset := by omega
      by_cases hin : offset ≤ pos ∧ pos < offset + bytesStored size offset
      · rw [if_pos hin, if_pos ⟨rfl, hin.1, hcast.mpr hin.2⟩, List.getD_eq_getElem?_getD,
          List.getD_eq_getElem?_getD, List.getElem?_take_of_lt (by omega)]
      · rw [if_neg hin, if_neg fun hc => hin ⟨hc.2.1, hcast.mp hc.2.2⟩]
    · rw [byte_update_of_ne (Ne.symm heq), if_neg fun hc => heq hc.1, hbyte]

end Tree

/-- The bytes of the files are the bytes last stored. -/
theorem TreeRun.byte_eq (h : TreeRun t log) : t.byte place pos = lastStored place pos log := by
  induction h with
  | made =>
    rw [lastStored, Tree.byte, newTree]
    split
    · next heq => split at heq <;> cases heq
    · rfl
  | call _ hstep ih => exact hstep.byte_eq ih

end Reading

section Run

variable {junk : Bytes} {times : Times} {s s' : Fs} {log : List Event} {path bytes : List UInt8}
  {size offset atime : ℕ} {ret : ℤ}

/-- A read that does not fail returns bytes last stored. -/
theorem Run.read_lastStored (hrun : Run Fs.Allows junk times s log)
    (hc : s.Allows (.read path size offset atime))
    (hexec : Call.exec s (.read path size offset atime) = some (⟨ret, bytes⟩, s')) (hret : 0 ≤ ret) :
    ret = bytes.length ∧ ∀ x (hx : x < bytes.length),
      bytes[x] = lastStored (canonical (strtokAll path)) (offset + x) log := by
  obtain ⟨g, T, hkept, htree⟩ := hrun.kept_graph
  obtain ⟨⟨ret', bytes', s₁⟩, hcall, hr⟩ := Option.map_eq_some_iff.mp hexec
  cases hr
  rcases rufsRead_spec hkept.layout hkept.rep hkept.closed (hkept.mayAccess hc) hcall with
    ⟨-, rfl, -⟩ | ⟨i, fileSize, blocks, hwalk, hfile, -, -, -, hread⟩
  · simp [ENOENT] at hret
  · obtain ⟨place, hplace, hi⟩ := resolve_of_walk hkept.placed hwalk
    have hcanonical : place = canonical (strtokAll path) := Tree.resolve_eq_foldl hplace
    refine ⟨hread.ret_eq, fun x hx => ?_⟩
    rw [← hcanonical, ← htree.byte_eq, Tree.byte_of_file (treeOf_file hi hfile),
      hread.byte (List.getElem?_eq_getElem hx)]

/-- Three bytes written to `"/a"` and read back with what comes before them. -/
theorem Run.read_lastStored_written : ∃ s s' ret bytes,
    Run Fs.Allows (fun _ => 0) ⟨0, 0⟩ s
      [⟨.write slashA [7, 8, 9] 3 0 ⟨0, 0⟩, ⟨3, []⟩⟩, ⟨.create slashA ⟨0, 0⟩, ⟨0, []⟩⟩] ∧
    Call.exec s (.read slashA 8 1 0) = some (⟨ret, bytes⟩, s') ∧ 0 ≤ ret ∧
    (ret = bytes.length ∧ ∀ x (hx : x < bytes.length),
      bytes[x] = lastStored (canonical (strtokAll slashA)) (1 + x)
        [⟨.write slashA [7, 8, 9] 3 0 ⟨0, 0⟩, ⟨3, []⟩⟩, ⟨.create slashA ⟨0, 0⟩, ⟨0, []⟩⟩]) := by
  obtain ⟨s₁, i, hfile⟩ := exists_file (fun _ => 0) ⟨0, 0⟩
  obtain ⟨s, blocks, hfile, -⟩ := hfile.write (by decide : 0 < 65536) (by decide : 0 < 3) (by decide)
    (by decide : 3 ≤ ([7, 8, 9] : List UInt8).length)
  obtain ⟨ret, bytes, s', hcall, hret⟩ :=
    rufsRead_total 0 8 hfile.getNodeByPath_eq (by decide : 1 < 65536)
  have hexec : Call.exec s (.read slashA 8 1 0) = some (⟨ret, bytes⟩, s') := by
    rw [Call.exec, hcall]
    rfl
  exact ⟨s, s', ret, bytes, hfile.run, hexec, hret,
    Run.read_lastStored hfile.run hfile.accesses hexec hret⟩

end Run

end UserLevelOs.Files
