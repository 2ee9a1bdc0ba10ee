import FiniteState.Proofs.Net.Automaton
import FiniteState.Splice

/-!
# The names of spliced states

The states that replace a transition are called by a stem and a number. The stem holds the number
of the transition, and underscores are put before it until no name of the graph begins with it.
So the states of two transitions never share a name, and no state of the graph is called like
one of them, whatever the names of the graph look like.
-/

namespace FiniteState

/-! ## Stems that are not taken -/

theorem stemTaken_iff (names : List String) (stem : String) :
    stemTaken names stem = true ↔ ∃ name ∈ names, stem.toList <+: name.toList := by
  simp only [stemTaken, List.any_eq_true, List.isPrefixOf_iff_prefix]

theorem not_stemTaken_of_length_lt {names : List String} {stem : String}
    (h : ∀ name ∈ names, name.length < stem.length) : ¬ stemTaken names stem = true := by
  rw [stemTaken_iff]
  rintro ⟨name, hname, hbegins⟩
  have hle := hbegins.length_le
  rw [String.length_toList, String.length_toList] at hle
  exact absurd (h name hname) (Nat.not_lt.2 hle)

/-- With enough underscores a stem is longer than all names. -/
theorem not_stemTaken_padStem {names : List String} (n : Nat) {stem : String}
    (h : ∀ name ∈ names, name.length < stem.length + n) :
    ¬ stemTaken names (padStem names n stem) = true := by
  induction n generalizing stem with
  | zero => exact not_stemTaken_of_length_lt h
  | succ n ih =>
      rw [padStem]
      split
      · refine ih fun name hname => ?_
        have hlt := h name hname
        have hlength : ("_" ++ stem).length = stem.length + 1 := by
          rw [String.length_append, Nat.add_comm]
          rfl
        omega
      · next hfree => exact hfree

theorem le_foldl_max (ns : List Nat) (m : Nat) :
    m ≤ ns.foldl max m ∧ ∀ n ∈ ns, n ≤ ns.foldl max m := by
  induction ns generalizing m with
  | nil => simp
  | cons k ns ih =>
      obtain ⟨hm, hall⟩ := ih (max m k)
      rw [List.foldl_cons]
      refine ⟨(Nat.le_max_left m k).trans hm, fun n hn => ?_⟩
      rcases List.mem_cons.1 hn with rfl | hn
      · exact (Nat.le_max_right m n).trans hm
      · exact hall n hn

/-- No name begins with the stem that is chosen. -/
theorem not_prefix_freeStem {names : List String} (stem : String) {name : String}
    (hname : name ∈ names) : ¬ (freeStem names stem).toList <+: name.toList := by
  intro hbegins
  have hfree : ¬ stemTaken names (freeStem names stem) = true := by
    refine not_stemTaken_padStem _ fun other hother => ?_
    have hle := (le_foldl_max (names.map String.length) 0).2 _ (List.mem_map_of_mem hother)
    omega
  exact hfree ((stemTaken_iff names _).2 ⟨name, hname, hbegins⟩)

theorem exists_padStem_eq (names : List String) (n : Nat) (stem : String) :
    ∃ k, (padStem names n stem).toList = List.replicate k '_' ++ stem.toList := by
  induction n generalizing stem with
  | zero => exact ⟨0, rfl⟩
  | succ n ih =>
      rw [padStem]
      split
      · obtain ⟨k, hk⟩ := ih ("_" ++ stem)
        refine ⟨k + 1, ?_⟩
        rw [hk, String.toList_append, List.replicate_succ', List.append_assoc]
        rfl
      · exact ⟨0, rfl⟩

namespace Automaton

open Net (stateName)

/-! ## The names of the states that replace a transition -/

theorem stateName_not_mem (names : List String) (i k : Nat) :
    stateName (stemFor names i) k ∉ names := by
  intro hmem
  refine not_prefix_freeStem ("t" ++ toString i ++ ".") hmem ?_
  exact ⟨(toString k).toList, String.toList_append.symm⟩

/-- The name of a state holds the number of the transition between a letter and a dot. -/
theorem exists_toList_stateName (names : List String) (i k : Nat) :
    ∃ n, (stateName (stemFor names i) k).toList =
      List.replicate n '_' ++ 't' :: (Nat.toDigits 10 i ++ '.' :: Nat.toDigits 10 k) := by
  obtain ⟨n, hn⟩ := exists_padStem_eq names ((names.map String.length).foldl max 0 + 1)
    ("t" ++ toString i ++ ".")
  refine ⟨n, ?_⟩
  rw [stateName, String.toList_append, stemFor, freeStem, hn]
  simp

theorem dot_not_mem_toDigits (i : Nat) : '.' ∉ Nat.toDigits 10 i := by
  intro hmem
  have hdigit := Nat.isDigit_of_mem_toDigits (by decide) (by decide) hmem
  revert hdigit
  decide

theorem takeWhile_toDigits (i : Nat) (cs : List Char) :
    (Nat.toDigits 10 i ++ '.' :: cs).takeWhile (· != '.') = Nat.toDigits 10 i := by
  rw [List.takeWhile_append_of_pos]
  · simp
  · intro c hc
    exact bne_iff_ne.2 fun heq => dot_not_mem_toDigits i (heq ▸ hc)

/-- States that replace different transitions have different names. -/
theorem eq_of_stateName_eq {names : List String} {i j k l : Nat}
    (h : stateName (stemFor names i) k = stateName (stemFor names j) l) : i = j := by
  obtain ⟨n, hn⟩ := exists_toList_stateName names i k
  obtain ⟨m, hm⟩ := exists_toList_stateName names j l
  have hlists := hn.symm.trans ((congrArg String.toList h).trans hm)
  -- the underscores go, and the digits up to the dot are left
  have hbody := congrArg (List.dropWhile (· == '_')) hlists
  rw [List.dropWhile_append_of_pos (by simp), List.dropWhile_append_of_pos (by simp)] at hbody
  have hrest : Nat.toDigits 10 i ++ '.' :: Nat.toDigits 10 k =
      Nat.toDigits 10 j ++ '.' :: Nat.toDigits 10 l := (List.cons.inj hbody).2
  have hdigits := congrArg (List.takeWhile (· != '.')) hrest
  rw [takeWhile_toDigits, takeWhile_toDigits] at hdigits
  have hnumber := congrArg (fun cs => Nat.ofDigitChars 10 cs 0) hdigits
  rwa [Nat.ofDigitChars_toDigits (by decide) (by decide),
    Nat.ofDigitChars_toDigits (by decide) (by decide)] at hnumber

end Automaton

end FiniteState
