import Chip8.Command.Perform
import Chip8.Proofs.Reassembly
import Mathlib

/-! A listing that goes through a file. What is written to a file is read back, whatever leads to
it, and the lines of a listing hold nothing that ends a line, so its text splits into the same lines
again. Only the listing of an empty image has no line while its text has one. -/

namespace Chip8
open Text

theorem Text.joinLines_eq_flatMap {ls : List (List Char)} (h : ls ≠ []) :
    joinLines ls = ls.flatMap (· ++ ['\n']) := by
  fun_induction joinLines ls with
  | case1 => exact absurd rfl h
  | case2 l => simp
  | case3 l l' ls ih => simp [ih]

theorem Listing.onLine_of_mem {image : List UInt8} {line : String}
    (hline : line ∈ (ofImage image).lines) : OnLine line.toList := by
  rw [lines_ofImage] at hline
  rcases List.mem_append.mp hline with hword | hbyte
  · obtain ⟨k, -, rfl⟩ := List.mem_map.mp hword
    exact Instruction.onLine_text _
  · split at hbyte
    · obtain rfl := List.mem_singleton.mp hbyte
      rw [String.toList_ofList]
      exact (Hex.solid_constant 2 _).onLine
    · cases hbyte

namespace Files
variable {f : Files} {place : List String} {path : String}

/-- A file can be written here: the path leads to a place in a directory, and there is no directory
at the place itself. -/
def Writable (f : Files) (path : String) : Prop :=
  ∃ place, f.resolve path = .ok place ∧ f.lookup place ≠ some .directory

def withFile (f : Files) (place : List String) (bytes : List UInt8) : Files :=
  ⟨(place, .file bytes) :: f.entries⟩

theorem lookup_withFile_of_ne {p : List String} (h : p ≠ place) (bytes : List UInt8) :
    (f.withFile place bytes).lookup p = f.lookup p := by
  cases p with
  | nil => rfl
  | cons c cs => simp [lookup, withFile, List.lookup_cons, beq_false_of_ne h]

theorem lookup_withFile_self (h : f.lookup place ≠ some .directory) (bytes : List UInt8) :
    (f.withFile place bytes).lookup place = some (.file bytes) := by
  cases place with
  | nil => exact absurd rfl h
  | cons c cs => simp [lookup, withFile]

theorem walk_withFile (h : f.lookup place ≠ some .directory) (bytes : List UInt8)
    {start stop : List String} {cs : List String} (hwalk : f.walk start cs = .ok stop) :
    (f.withFile place bytes).walk start cs = .ok stop := by
  induction cs generalizing start with
  | nil => exact hwalk
  | cons c cs ih =>
    rw [walk] at hwalk ⊢
    cases hstart : f.lookup start with
    | none => simp [hstart] at hwalk
    | some entry =>
      cases entry with
      | file bytes => simp [hstart] at hwalk
      | directory =>
        -- A walk passes directories only, so it does not pass the file.
        have hne : start ≠ place := by
          rintro rfl
          exact h hstart
        rw [hstart] at hwalk
        rw [lookup_withFile_of_ne hne, hstart]
        dsimp only at hwalk ⊢
        split_ifs at hwalk ⊢
        all_goals exact ih hwalk

theorem resolve_withFile (h : f.lookup place ≠ some .directory) (bytes : List UInt8)
    {p : List String} (hpath : f.resolve path = .ok p) :
    (f.withFile place bytes).resolve path = .ok p := by
  unfold resolve at hpath ⊢
  split_ifs at hpath ⊢
  exact walk_withFile h bytes hpath

theorem Writable.write (h : f.Writable path) (bytes : List UInt8) :
    ∃ g, f.write? path bytes = some g ∧ g.read path = .ok bytes ∧
      ∀ other, f.Writable other → g.Writable other := by
  obtain ⟨place, hplace, hlookup⟩ := h
  refine ⟨f.withFile place bytes, ?_, ?_, ?_⟩
  · unfold write?
    rw [hplace]
    dsimp only
    split
    · next hdirectory => exact absurd hdirectory hlookup
    · rfl
  · rw [read, resolve_withFile hlookup bytes hplace]
    dsimp only
    rw [lookup_withFile_self hlookup]
  · intro other hother
    obtain ⟨p, hp, hpl⟩ := hother
    refine ⟨p, resolve_withFile hlookup bytes hp, ?_⟩
    by_cases heq : p = place
    · rw [heq, lookup_withFile_self hlookup]
      simp
    · rwa [lookup_withFile_of_ne heq]

end Files

namespace Command

theorem decodeText_toUTF8 (s : String) : decodeText s.toUTF8.data.toList = some s := by
  simp only [decodeText, Array.toArray_toList, String.fromUTF8?, String.toUTF8_eq_toByteArray,
    dif_pos s.isValidUTF8]
  rfl

theorem textLines_listingText {image : List UInt8} (h : image ≠ []) :
    textLines (listingText (Listing.ofImage image).lines) = (Listing.ofImage image).lines := by
  have hne : (Listing.ofImage image).lines.map String.toList ≠ [] := by
    intro hnil
    have hlength := Listing.length_lines image
    rw [List.map_eq_nil_iff.mp hnil, List.length_nil] at hlength
    have := List.length_pos_iff.mpr h
    omega
  have hends : ∀ l ∈ (Listing.ofImage image).lines.map String.toList,
      ∀ c ∈ l, c ≠ '\n' ∧ c ≠ '\r' := by
    intro l hl
    obtain ⟨line, hline, rfl⟩ := List.mem_map.mp hl
    exact (Listing.onLine_of_mem hline).unbroken
  rw [textLines, listingText, String.toList_ofList, joinLines_eq_flatMap hne,
    splitLines_flatMap hends]
  simp [Function.comp_def]

theorem textLines_listingText_nil : textLines (listingText []) = [""] := by decide

variable {f : Files}

theorem carryOut_of_output {w : Surroundings} {c : Command} {r : Result} {path : String}
    {bytes : List UInt8} (hperform : c.perform w (f.read c.input) = .ok r)
    (houtput : r.output = some (path, bytes)) (h : f.Writable path) :
    (c.carryOut w f).failure = none ∧
    (c.carryOut w f).records = r.records ++ r.closing ∧
    (c.carryOut w f).files.read path = .ok bytes ∧
    ∀ other, f.Writable other → (c.carryOut w f).files.Writable other := by
  obtain ⟨g, hwrite, hread, hkept⟩ := h.write bytes
  have hcarry : c.carryOut w f = ⟨r.records ++ r.closing, r.stdout, none, g⟩ := by
    simp only [carryOut, hperform, finish, houtput, hwrite]
  rw [hcarry]
  exact ⟨rfl, rfl, hread, hkept⟩

section InTurn
variable {rom listing target : String} {image : List UInt8}

theorem reassembled_of_read (w : Surroundings) (hrom : f.read rom = .ok image)
    (hlisting : f.Writable listing) (htarget : f.Writable target) :
    let text := listingText (Listing.ofImage image).lines
    let a := Assembly.ofLines (textLines text)
    let listed := (Command.disassemble rom (some listing)).carryOut w f
    let ending := (Command.assemble listing target).carryOut w listed.files
    listed.failure = none ∧
    listed.files.read listing = .ok text.toUTF8.data.toList ∧
    ending.failure = none ∧
    ending.files.read target = .ok a.bytes ∧
    ending.records = Assembly.records (textLines text) ++
      (a.failures.map fun k => .unassembled listing (k + 1) ((textLines text).getD k "")) ++
        [.assembled a.words.length target a.failures.length] := by
  intro text a listed ending
  have hlist : (Command.disassemble rom (some listing)).perform w (f.read rom) =
      .ok (disassembleResult (some listing) image) := by
    rw [perform, hrom]
    rfl
  have houtput : (disassembleResult (some listing) image).output =
      some (listing, text.toUTF8.data.toList) := rfl
  obtain ⟨hlisted, -, hread, hkept⟩ :=
    carryOut_of_output (c := .disassemble rom (some listing)) hlist houtput hlisting
  have hassemble : (Command.assemble listing target).perform w (listed.files.read listing) =
      .ok { records := Assembly.records (textLines text) ++
              a.failures.map fun k => .unassembled listing (k + 1) ((textLines text).getD k "")
            output := some (target, a.bytes)
            closing := [.assembled a.words.length target a.failures.length] } := by
    rw [hread, perform]
    simp only [assembleResult, decodeText_toUTF8]
    rfl
  obtain ⟨hended, hrecords, hread', -⟩ :=
    carryOut_of_output (c := .assemble listing target) hassemble rfl (hkept target htarget)
  exact ⟨hlisted, hread, hended, hread', hrecords⟩

/-- The listing of an image goes through a file unchanged and is assembled without a failed line.
The one listing without a line is the exception: its text is that of a blank line, which fails and
becomes a word of its own. -/
theorem listing_file_reassembles (w : Surroundings) (hrom : f.read rom = .ok image)
    (hlisting : f.Writable listing) (htarget : f.Writable target) :
    let lines := (Listing.ofImage image).lines
    let listed := (Command.disassemble rom (some listing)).carryOut w f
    let ending := (Command.assemble listing target).carryOut w listed.files
    listed.failure = none ∧
    listed.files.read listing = .ok (listingText lines).toUTF8.data.toList ∧
    ending.failure = none ∧
    (image ≠ [] →
      textLines (listingText lines) = lines ∧
      ending.files.read target = .ok (Assembly.ofLines lines).bytes ∧
      ending.records = [.assembled ((image.length + 1) / 2) target 0]) ∧
    (image = [] →
      ending.files.read target = .ok [0, 0] ∧
      ending.records =
        [.lineRefused 0 "", .unassembled listing 1 "", .assembled 1 target 1]) := by
  intro lines listed ending
  obtain ⟨hlisted, hread, hended, hread', hrecords⟩ :=
    reassembled_of_read w hrom hlisting htarget
  refine ⟨hlisted, hread, hended, ?_, ?_⟩
  · intro hne
    have hlines : textLines (listingText lines) = lines := textLines_listingText hne
    have hfailures : (Assembly.ofLines lines).failures = [] :=
      Assembly.failuresFrom_eq_nil Listing.lineWord?_ne_none 0
    rw [hlines] at hread' hrecords
    refine ⟨hlines, hread', ?_⟩
    have hcount : (Assembly.ofLines lines).words.length = (image.length + 1) / 2 := by
      rw [Assembly.length_words, Listing.length_lines]
    rw [Assembly.records, hfailures, hcount] at hrecords
    exact hrecords
  · rintro rfl
    have hlines : textLines (listingText lines) = [""] := textLines_listingText_nil
    rw [hlines] at hread' hrecords
    have hfailures : (Assembly.ofLines [""]).failures = [0] := by decide
    refine ⟨hread', ?_⟩
    rw [Assembly.records, hfailures, Assembly.length_words] at hrecords
    exact hrecords

def oneFile (bytes : List UInt8) : Files := ⟨[(["b"], .file bytes)]⟩

def noTime : Surroundings := ⟨fun _ => 0, fun _ => 0, fun _ => 0, fun _ => 0, 0⟩

theorem listing_file_of_three_bytes :
    let listed := (Command.disassemble "b" (some "L")).carryOut noTime (oneFile [0x00, 0xE0, 0xAB])
    let ending := (Command.assemble "L" "R").carryOut noTime listed.files
    ending.files.read "R" = .ok [0x00, 0xE0, 0x00, 0xAB] ∧ ending.records = [.assembled 2 "R" 0] := by
  intro listed ending
  have hrom : (oneFile [0x00, 0xE0, 0xAB]).read "b" = .ok [0x00, 0xE0, 0xAB] := by cbv
  have hlisting : (oneFile [0x00, 0xE0, 0xAB]).Writable "L" := ⟨["L"], by cbv, by decide⟩
  have htarget : (oneFile [0x00, 0xE0, 0xAB]).Writable "R" := ⟨["R"], by cbv, by decide⟩
  obtain ⟨-, -, -, hended, -⟩ := listing_file_reassembles noTime hrom hlisting htarget
  obtain ⟨-, hread, hrecords⟩ := hended (by decide)
  have hbytes : (Assembly.ofLines (Listing.ofImage [0x00, 0xE0, 0xAB]).lines).bytes =
      [0x00, 0xE0, 0x00, 0xAB] := by decide +kernel
  exact ⟨hread.trans (congrArg _ hbytes), hrecords⟩

theorem empty_listing_gains_a_line : ¬∀ (w : Surroundings) (f : Files)
    (rom listing target : String) (image : List UInt8),
    f.read rom = .ok image → f.Writable listing → f.Writable target →
    let lines := (Listing.ofImage image).lines
    let listed := (Command.disassemble rom (some listing)).carryOut w f
    let ending := (Command.assemble listing target).carryOut w listed.files
    ending.files.read target = .ok (Assembly.ofLines lines).bytes ∧
      ending.records = [.assembled lines.length target 0] := by
  intro hall
  have hrom : (oneFile []).read "b" = .ok [] := by cbv
  have hlisting : (oneFile []).Writable "L" := ⟨["L"], by cbv, by decide⟩
  have htarget : (oneFile []).Writable "R" := ⟨["R"], by cbv, by decide⟩
  have hclaimed := (hall noTime (oneFile []) _ _ _ _ hrom hlisting htarget).1
  obtain ⟨-, -, -, hread, -⟩ := reassembled_of_read noTime hrom hlisting htarget
  have hzero : (Assembly.ofLines (textLines (listingText (Listing.ofImage []).lines))).bytes =
      [0, 0] := by decide
  rw [hread, hzero] at hclaimed
  cases hclaimed

end InTurn
end Command
end Chip8
