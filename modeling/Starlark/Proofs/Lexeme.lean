import Starlark.Lexeme
import Starlark.Proofs.Outcome

/-!
# Scanning as a relation

`Scans m source ls` says that the lexemes `ls` stand in `source` behind the
margin `m`: white space and the end, or white space, one piece of the source
and whatever stands behind it. This is what `scanFrom` computes
(`scans_iff`), and facts about all lexemes of a source are proved by induction
on it.
-/

set_option autoImplicit false

namespace Starlark.Lexeme

open Outcome (bind_eq_ok map_eq_ok)

/-! ## No piece reaches behind the source -/

theorem numberExtent_le (rest : List Char) : numberExtent rest ≤ rest.length := by
  fun_induction numberExtent rest with
  | case1 => simp
  | case2 | case3 => simp
  | case4 _ _ _ _ ih | case5 _ _ _ _ _ ih =>
      simp only [List.length_cons] at ih ⊢
      omega
  | case6 => simp

/-- A string on one line does not reach beyond the source. -/
theorem shortExtent_le {quote : Char} {rest : List Char} {n : Nat}
    (reaches : shortExtent quote rest = .ok n) : n ≤ rest.length := by
  fun_induction shortExtent quote rest generalizing n with
  | case1 | case2 | case5 => cases reaches
  | case3 _ rest ih | case6 _ rest _ _ _ _ ih =>
      obtain ⟨k, inner, rfl⟩ := map_eq_ok.mp reaches
      have bound := ih inner
      simp only [List.length_cons]
      omega
  | case4 =>
      cases reaches
      simp

/-- Neither does one in triple quotes. -/
theorem longExtent_le {quote : Char} {rest : List Char} {n : Nat}
    (reaches : longExtent quote rest = .ok n) : n ≤ rest.length := by
  fun_induction longExtent quote rest generalizing n with
  | case1 => cases reaches
  | case2 _ rest ih | case4 _ rest _ _ ih =>
      obtain ⟨k, inner, rfl⟩ := map_eq_ok.mp reaches
      have bound := ih inner
      simp only [List.length_cons]
      omega
  | case3 c rest _ closes =>
      cases reaches
      have bound := (List.isPrefixOf_iff_prefix.mp closes.2).length_le
      simp only [List.length_cons, List.length_nil] at bound ⊢
      omega

/-- So no string does. -/
theorem stringExtent_le {quote : Char} {rest : List Char} {n : Nat}
    (reaches : stringExtent quote rest = .ok n) : n ≤ rest.length := by
  rw [stringExtent] at reaches
  split at reaches
  · rename_i opens
    obtain ⟨k, inner, rfl⟩ := map_eq_ok.mp reaches
    have long := longExtent_le inner
    have bound := (List.isPrefixOf_iff_prefix.mp opens).length_le
    simp only [List.length_cons, List.length_nil, List.length_drop] at bound long
    omega
  · exact shortExtent_le reaches

/-- An operator that is found stands at the front. -/
theorem isPrefix_of_operatorText? {source text : List Char}
    (found : operatorText? source = some text) : text <+: source := by
  rw [operatorText?] at found
  obtain ⟨width, _, front⟩ := List.exists_of_findSome?_eq_some found
  simp only at front
  split at front
  · cases front
    exact List.take_prefix width source
  · cases front

/-- A broken line does not reach beyond the source. -/
theorem lineBreakWidth?_le {rest : List Char} {width : Nat}
    (found : lineBreakWidth? rest = some width) : width ≤ rest.length := by
  unfold lineBreakWidth? at found
  split at found
  · cases found
    simp
  · cases found
    simp
  · cases found

/-- What is cut off a source at a character is a part of the source. -/
theorem pieceAt_le {c : Char} {rest : List Char} {piece : Piece} {more : Nat}
    (cut : pieceAt c rest = .ok (piece, more)) : more ≤ rest.length := by
  unfold pieceAt at cut
  split at cut
  · cases cut
    simp
  split at cut
  · cases width : lineBreakWidth? rest with
    | none =>
        rw [width] at cut
        cases cut
    | some w =>
        rw [width] at cut
        cases cut
        exact lineBreakWidth?_le width
  split at cut
  · cases cut
    exact (List.takeWhile_sublist _).length_le
  split at cut
  · obtain ⟨k, inner, same⟩ := map_eq_ok.mp cut
    cases same
    exact stringExtent_le inner
  split at cut
  · cases cut
    exact numberExtent_le rest
  split at cut
  · split at cut
    · rename_i quote others
      split at cut
      · obtain ⟨k, inner, same⟩ := map_eq_ok.mp cut
        cases same
        have bound := stringExtent_le inner
        simp only [List.length_cons]
        omega
      · cases cut
        exact (List.takeWhile_sublist _).length_le
    · cases cut
      simp
  · split at cut
    · rename_i text found
      cases cut
      have bound := (isPrefix_of_operatorText? found).length_le
      simp only [List.length_cons] at bound
      omega
    · cases cut

/-! ## The relation -/

/-- The lexemes that stand in a source behind a margin. -/
inductive Scans : Margin → List Char → List Lexeme → Prop
  | finish {m : Margin} {spaces : List Char} (white : spaces.all isSpace = true) :
      Scans m spaces (m.skip spaces).finish
  | step {m m' : Margin} {spaces text rest : List Char} {c : Char} {layout ls : List Lexeme}
      {piece : Piece} (white : spaces.all isSpace = true) (solid : isSpace c = false)
      (indentation : (m.skip spaces).indentation c = .ok (layout, m'))
      (cut : pieceAt c (text ++ rest) = .ok (piece, text.length))
      (next : Scans (m'.after piece (c :: text) rest) rest ls) :
      Scans m (spaces ++ c :: (text ++ rest))
        (layout ++ (m'.lexeme? piece (c :: text) rest).toList ++ ls)

theorem takeWhile_space {spaces : List Char} (white : spaces.all isSpace = true) {c : Char}
    (solid : isSpace c = false) (rest : List Char) :
    (spaces ++ c :: rest).takeWhile isSpace = spaces := by
  rw [List.takeWhile_append_of_pos (by simpa using white)]
  simp [solid]

theorem dropWhile_space {spaces : List Char} (white : spaces.all isSpace = true) {c : Char}
    (solid : isSpace c = false) (rest : List Char) :
    (spaces ++ c :: rest).dropWhile isSpace = c :: rest := by
  rw [List.dropWhile_append_of_pos (by simpa using white)]
  simp [solid]

/-- One step of the scan, with the source cut into its parts. -/
theorem scanFrom_append {m : Margin} {spaces : List Char} (white : spaces.all isSpace = true)
    {c : Char} (solid : isSpace c = false) (text rest : List Char) {piece : Piece}
    (cut : pieceAt c (text ++ rest) = .ok (piece, text.length)) :
    scanFrom m (spaces ++ c :: (text ++ rest)) = (do
      let (layout, m') ← (m.skip spaces).indentation c
      let lexemes ← scanFrom (m'.after piece (c :: text) rest) rest
      .ok (layout ++ (m'.lexeme? piece (c :: text) rest).toList ++ lexemes)) := by
  rw [scanFrom]
  simp only [takeWhile_space white solid]
  split
  · rename_i found
    rw [dropWhile_space white solid] at found
    cases found
  · rename_i found
    rw [dropWhile_space white solid] at found
    obtain ⟨rfl, rfl⟩ := List.cons.inj found
    simp [cut]

/-- The scanner gives the lexemes that the relation describes, by induction on it. -/
theorem Scans.scanFrom {m : Margin} {source : List Char} {ls : List Lexeme}
    (scans : Scans m source ls) : scanFrom m source = .ok ls := by
  induction scans with
  | @finish m spaces white =>
      have all : ∀ c ∈ spaces, isSpace c = true := by simpa using white
      have taken : (spaces ++ []).takeWhile isSpace = spaces ++ [].takeWhile isSpace :=
        List.takeWhile_append_of_pos all
      have dropped : (spaces ++ []).dropWhile isSpace = [].dropWhile isSpace :=
        List.dropWhile_append_of_pos all
      simp only [List.append_nil, List.takeWhile_nil, List.dropWhile_nil] at taken dropped
      rw [Lexeme.scanFrom]
      split
      · rw [taken]
      · rename_i found
        rw [dropped] at found
        cases found
  | step white solid indentation cut _ ih =>
      rw [scanFrom_append white solid _ _ cut, indentation]
      show (Lexeme.scanFrom _ _ >>= _) = _
      rw [ih]
      rfl

/-- What the scanner gives is described by the relation. -/
theorem scans_of_scanFrom {m : Margin} {source : List Char} {ls : List Lexeme}
    (success : scanFrom m source = .ok ls) : Scans m source ls := by
  fun_induction scanFrom m source generalizing ls with
  | case1 m source =>
      rename_i blank
      cases success
      have split : source.takeWhile isSpace ++ source.dropWhile isSpace = source :=
        List.takeWhile_append_dropWhile
      rw [blank, List.append_nil] at split
      have white : source.all isSpace = true := by
        rw [← split]
        exact List.all_takeWhile
      show Scans m source (m.skip (source.takeWhile isSpace)).finish
      rw [split]
      exact .finish white
  | case2 m source _ c rest found =>
      rename_i ih
      obtain ⟨⟨layout, m'⟩, indentation, follows⟩ := bind_eq_ok.mp success
      simp only at follows
      split at follows
      · cases follows
      · rename_i piece more cut
        obtain ⟨lexemes, scanned, done⟩ := bind_eq_ok.mp follows
        cases done
        have solid : isSpace c = false := by
          have head := @List.head_dropWhile_not _ isSpace source (by simp [found])
          simpa [found] using head
        have split :
            source = source.takeWhile isSpace ++ c :: (rest.take more ++ rest.drop more) := by
          rw [List.take_append_drop, ← found, List.takeWhile_append_dropWhile]
        have width : (rest.take more).length = more :=
          List.length_take_of_le (pieceAt_le cut)
        rw [split]
        refine .step List.all_takeWhile solid indentation ?_ (ih m' piece more scanned)
        rw [List.take_append_drop, width, cut]

theorem scans_iff {m : Margin} {source : List Char} {ls : List Lexeme} :
    Scans m source ls ↔ scanFrom m source = .ok ls :=
  ⟨Scans.scanFrom, scans_of_scanFrom⟩

end Starlark.Lexeme
