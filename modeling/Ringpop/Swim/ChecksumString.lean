/-
# The checksum string identifies the view

`GenChecksumString` writes the address, the status and the incarnation of each member one
after the other, without anything in between, sorts what it has written and ends each by a
semicolon.  Read from the right an entry can be taken apart again: the incarnation is made
of digits and perhaps a sign, none of the four statuses ends in one of them, and none is
the end of another.  So member lists whose addresses have no semicolon have the same string
exactly if they have the same members (`checksum_string_identifies_view`).
-/

import Ringpop.Collections.Words
import Ringpop.Swim.NodeEffect

namespace Ringpop
namespace Swim

open CellStore

/-! ### Statuses and incarnations -/

/-- No status is the end of another. -/
theorem Status.eq_of_isSuffix {s t : Status} (h : s.name.toList <:+ t.name.toList) : s = t := by
  revert h
  cases s <;> cases t <;> decide

/-- **A status at the end of a word** is known by the word. -/
theorem Status.append_name_inj {w v : List Char} {s t : Status}
    (h : w ++ s.name.toList = v ++ t.name.toList) : w = v ∧ s = t := by
  rcases List.append_eq_append_iff.1 h with ⟨l, rfl, hl⟩ | ⟨l, rfl, hl⟩
  · obtain rfl := Status.eq_of_isSuffix ⟨l, hl.symm⟩
    simpa using hl
  · obtain rfl := Status.eq_of_isSuffix ⟨l, hl.symm⟩
    simpa using hl

/-- A status ends in a letter. -/
theorem Status.getLast?_append_name (w : List Char) (s : Status) :
    ∀ c ∈ (w ++ s.name.toList).getLast?, ¬ (c.isDigit = true ∨ c = '-') := by
  have hne : s.name.toList ≠ [] := by cases s <;> decide
  rw [List.getLast?_append_of_ne_nil _ hne]
  have hlast : s.name.toList.getLast? ∈ [some 'e', some 't', some 'y'] := by cases s <;> decide
  simp only [List.mem_cons, List.not_mem_nil, or_false] at hlast
  rcases hlast with hlast | hlast | hlast <;>
    · rw [hlast]
      rintro c ⟨rfl⟩
      decide

/-- An incarnation is written with digits and perhaps a sign. -/
theorem isDigit_or_of_mem_toString {i : ℤ} {c : Char} (h : c ∈ (toString i).toList) :
    c.isDigit = true ∨ c = '-' := by
  rw [Int.toString_eq_repr, Int.repr_eq_if] at h
  split_ifs at h
  · rw [Nat.repr_eq_ofList_toDigits, String.toList_ofList] at h
    exact .inl (Nat.isDigit_of_mem_toDigits (by decide) le_rfl h)
  · rw [String.toList_append, List.mem_append] at h
    rcases h with h | h
    · exact .inr (List.mem_singleton.1 h)
    · rw [Nat.repr_eq_ofList_toDigits, String.toList_ofList] at h
      exact .inl (Nat.isDigit_of_mem_toDigits (by decide) le_rfl h)

/-- **An incarnation is known by what is written for it.** -/
theorem incarnation_inj {i j : ℤ} (h : (toString i).toList = (toString j).toList) : i = j := by
  have hnat {m n : ℕ} (h : Nat.toDigits 10 m = Nat.toDigits 10 n) : m = n := by
    rw [← Nat.ofDigitChars_ten_toDigits (n := m), h, Nat.ofDigitChars_ten_toDigits]
  have hsign (n : ℕ) (l : List Char) : Nat.toDigits 10 n ≠ '-' :: l := fun h =>
    absurd (Nat.isDigit_of_mem_toDigits (b := 10) (c := '-') (n := n) (by decide) le_rfl
      (h ▸ .head _)) (by decide)
  simp only [Int.toString_eq_repr, Int.repr_eq_if, Nat.repr_eq_ofList_toDigits] at h
  split_ifs at h with hi hj hj
  · have := hnat (by simpa using h)
    omega
  · exact absurd (by simpa using h) (hsign i.toNat (Nat.toDigits 10 (-j).toNat))
  · exact absurd (by simpa using h.symm) (hsign j.toNat (Nat.toDigits 10 (-i).toNat))
  · have := hnat (by simpa using h)
    omega

/-! ### One member -/

namespace Member

/-- What `GenChecksumString` writes for a member. -/
def checksumEntry (member : Member) : String :=
  member.address ++ member.status ++ toString member.incarnation

/-- **A member is known by its entry**, if its status is valid. -/
theorem checksumEntry_inj {member member' : Member} (hm : ValidStatus member.status)
    (hm' : ValidStatus member'.status)
    (h : member.checksumEntry = member'.checksumEntry) : member = member' := by
  obtain ⟨s, hs⟩ := hm.exists_name
  obtain ⟨t, ht⟩ := hm'.exists_name
  have hlist := congrArg String.toList h
  simp only [checksumEntry, String.toList_append, hs, ht] at hlist
  obtain ⟨hword, hincarnation⟩ := Words.append_inj_of_kind
    (fun c => isDigit_or_of_mem_toString) (fun c => isDigit_or_of_mem_toString)
    (Status.getLast?_append_name _ s) (Status.getLast?_append_name _ t) hlist
  obtain ⟨haddress, rfl⟩ := Status.append_name_inj hword
  have hincarnation := incarnation_inj hincarnation
  rw [String.toList_inj] at haddress
  cases member
  cases member'
  simp_all

/-- The entry has a semicolon only if the address has. -/
theorem notMem_checksumEntry {member : Member} (hm : ValidStatus member.status)
    (haddress : ';' ∉ member.address.toList) : ';' ∉ member.checksumEntry.toList := by
  obtain ⟨s, hs⟩ := hm.exists_name
  have hstatus : ';' ∉ s.name.toList := by cases s <;> decide
  have hincarnation : ';' ∉ (toString member.incarnation).toList := fun h =>
    absurd (isDigit_or_of_mem_toString h) (by decide)
  rw [checksumEntry, String.toList_append, String.toList_append, hs]
  simp only [List.mem_append, not_or]
  exact ⟨⟨haddress, hstatus⟩, hincarnation⟩

end Member

/-! ### All members -/

namespace Memberlist

variable {m m' : Memberlist}

theorem toList_genChecksumString (m : Memberlist) :
    m.genChecksumString.toList = Words.ended ';'
      (((m.getMembers.map Member.checksumEntry).insertionSort (· ≤ ·)).map String.toList) := by
  have hjoin : m.genChecksumString = String.join
    (((m.getMembers.map Member.checksumEntry).insertionSort (· ≤ ·)).map (· ++ ";")) := rfl
  rw [hjoin, String.toList_join, Words.ended, List.flatMap_map, List.flatMap_map]
  simp

/-- **The checksum string** determines the entries that are in it. -/
theorem perm_of_genChecksumString_eq
    (hm : ∀ member ∈ m.getMembers, ';' ∉ member.checksumEntry.toList)
    (hm' : ∀ member ∈ m'.getMembers, ';' ∉ member.checksumEntry.toList)
    (h : m.genChecksumString = m'.genChecksumString) :
    (m.getMembers.map Member.checksumEntry).Perm (m'.getMembers.map Member.checksumEntry) := by
  have hsorted {m : Memberlist} (hm : ∀ member ∈ m.getMembers, ';' ∉ member.checksumEntry.toList) :
      ∀ w ∈ ((m.getMembers.map Member.checksumEntry).insertionSort (· ≤ ·)).map String.toList,
        ';' ∉ w := by
    intro w hw
    obtain ⟨entry, hentry, rfl⟩ := List.mem_map.1 hw
    rw [(List.perm_insertionSort ..).mem_iff] at hentry
    obtain ⟨member, hmember, rfl⟩ := List.mem_map.1 hentry
    exact hm member hmember
  have hwords := congrArg String.toList h
  rw [toList_genChecksumString, toList_genChecksumString] at hwords
  have heq := List.map_injective_iff.2 (fun _ _ => String.toList_inj.1)
    (Words.eq_of_ended_eq (hsorted hm) (hsorted hm') hwords)
  refine (List.perm_insertionSort (· ≤ ·) _).symm.trans ?_
  rw [heq]
  exact List.perm_insertionSort ..

end Memberlist

/-- **The checksum string identifies the view.**  Two member lists with valid statuses, and
without a semicolon in an address, have the same string exactly if they have the same members,
whatever the order of the lists. -/
theorem checksum_string_identifies_view (m m' : Memberlist) (h : m.Sound) (h' : m'.Sound)
    (hstatus : ∀ member ∈ m.getMembers, ValidStatus member.status)
    (hstatus' : ∀ member ∈ m'.getMembers, ValidStatus member.status)
    (haddress : ∀ member ∈ m.getMembers, ';' ∉ member.address.toList)
    (haddress' : ∀ member ∈ m'.getMembers, ';' ∉ member.address.toList) :
    m.genChecksumString = m'.genChecksumString ↔
      ∀ member, member ∈ m.getMembers ↔ member ∈ m'.getMembers := by
  constructor
  · intro heq
    have hperm := Memberlist.perm_of_genChecksumString_eq
      (fun member hm => Member.notMem_checksumEntry (hstatus member hm) (haddress member hm))
      (fun member hm => Member.notMem_checksumEntry (hstatus' member hm) (haddress' member hm)) heq
    have hsub {m m' : Memberlist} (hstatus : ∀ member ∈ m.getMembers, ValidStatus member.status)
        (hstatus' : ∀ member ∈ m'.getMembers, ValidStatus member.status)
        (hperm : (m.getMembers.map Member.checksumEntry).Perm
          (m'.getMembers.map Member.checksumEntry)) (member : Member)
        (hmem : member ∈ m.getMembers) : member ∈ m'.getMembers := by
      obtain ⟨member', hmem', hentry⟩ :=
        List.mem_map.1 (hperm.mem_iff.1 (List.mem_map_of_mem hmem))
      rwa [Member.checksumEntry_inj (hstatus member hmem) (hstatus' member' hmem') hentry.symm]
    exact fun member =>
      ⟨hsub hstatus hstatus' hperm member, hsub hstatus' hstatus hperm.symm member⟩
  · intro hmem
    exact h.genChecksumString_eq h' (h.entry_eq h' hmem)

/-- Two new members, one of them with a negative incarnation. -/
def twoChanges : List Change := [⟨"s", 1, "x", -1, suspect⟩, ⟨"s", 1, "y", 2, alive⟩]

/-- Nodes that know themselves, and members that came in the one or in the other order. -/
theorem checksum_string_identifies_view_order :
    ∃ n n', (Node.new "app" "a").deliver ⟨fun _ => 0, fun _ => 1⟩
        [.single "a" alive, ⟨twoChanges, fun _ => ⟨9, 0⟩⟩] = .ok n ∧
      (Node.new "app" "a").deliver ⟨fun _ => 0, fun _ => 1⟩
        [.single "a" alive, ⟨twoChanges.reverse, fun _ => ⟨9, 0⟩⟩] = .ok n' ∧
      n.memberlist.getMembers = [⟨"y", alive, 2⟩, ⟨"x", suspect, -1⟩, ⟨"a", alive, 1⟩] ∧
      n'.memberlist.getMembers = [⟨"x", suspect, -1⟩, ⟨"y", alive, 2⟩, ⟨"a", alive, 1⟩] ∧
      n.memberlist.genChecksumString = n'.memberlist.genChecksumString := by
  obtain ⟨n, hn, hlist⟩ := exists_of_map_eq_ok
    (x := (Node.new "app" "a").deliver ⟨fun _ => 0, fun _ => 1⟩
      [.single "a" alive, ⟨twoChanges, fun _ => ⟨9, 0⟩⟩])
    (F := fun n => n.memberlist.getMembers)
    (b := [⟨"y", alive, 2⟩, ⟨"x", suspect, -1⟩, ⟨"a", alive, 1⟩]) (by decide +kernel)
  obtain ⟨n', hn', hlist'⟩ := exists_of_map_eq_ok
    (x := (Node.new "app" "a").deliver ⟨fun _ => 0, fun _ => 1⟩
      [.single "a" alive, ⟨twoChanges.reverse, fun _ => ⟨9, 0⟩⟩])
    (F := fun n => n.memberlist.getMembers)
    (b := [⟨"x", suspect, -1⟩, ⟨"y", alive, 2⟩, ⟨"a", alive, 1⟩]) (by decide +kernel)
  refine ⟨n, n', hn, hn', hlist, hlist', (checksum_string_identifies_view n.memberlist n'.memberlist
    ((Node.sound_new _ _).deliver hn).memberlist ((Node.sound_new _ _).deliver hn').memberlist
    ?_ ?_ ?_ ?_).2 ?_⟩
  · rw [hlist]
    decide +kernel
  · rw [hlist']
    decide +kernel
  · rw [hlist]
    decide +kernel
  · rw [hlist']
    decide +kernel
  · intro member
    rw [hlist, hlist']
    simp only [List.mem_cons, List.not_mem_nil, or_false]
    exact or_left_comm

end Swim
end Ringpop
