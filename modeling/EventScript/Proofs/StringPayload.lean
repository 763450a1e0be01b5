import EventScript.Proofs.Exactness
import EventScript.Proofs.Quotation

/-!
The payloads of string literals. A content is cut by bytes and not by characters, so a cut may fall
into a character that has several of them. Then the payload ends with a part of that character and
is no UTF-8; else it is the UTF-8 of characters from the front of the content.

        content      S  a  y   é
        bytes        83 97 121 195 169
        limit five   83 97 121 195 169     kept Sayé, no part
        limit four   83 97 121 195         kept Say,  part 195
        limit three  83 97 121             kept Say,  no part
-/

namespace EventScript

open Operand (utf8)
open Token (quote)

/-! ### Cuts -/

/-- The bytes of a content up to a limit: the characters that are kept, and the part of the next one
that the limit falls into. -/
structure IsCut (limit : Nat) (content kept : List Char) (part : List UInt8) : Prop where
  front : kept <+: content
  inside : part ≠ [] → ∃ next, kept ++ [next] <+: content ∧
    part <+: String.utf8EncodeChar next ∧ part ≠ String.utf8EncodeChar next
  bytes : kept.flatMap String.utf8EncodeChar ++ part =
    (content.flatMap String.utf8EncodeChar).take limit

/-- Wherever the limit is, there is a cut. -/
theorem exists_isCut (limit : Nat) (content : List Char) :
    ∃ kept part, IsCut limit content kept part := by
  induction content generalizing limit with
  | nil => exact ⟨[], [], List.nil_prefix, fun hne => absurd rfl hne, by simp⟩
  | cons c rest ih =>
    by_cases hfits : (String.utf8EncodeChar c).length ≤ limit
    · obtain ⟨kept, part, hcut⟩ := ih (limit - (String.utf8EncodeChar c).length)
      refine ⟨c :: kept, part, ?_, ?_, ?_⟩
      · exact (List.prefix_cons_inj c).mpr hcut.front
      · intro hne
        obtain ⟨next, hnext, hpart⟩ := hcut.inside hne
        exact ⟨next, (List.prefix_cons_inj c).mpr hnext, hpart⟩
      · rw [List.flatMap_cons, List.flatMap_cons, List.append_assoc, hcut.bytes,
          List.take_append, List.take_of_length_le hfits]
    · have hshort : ((String.utf8EncodeChar c).take limit).length <
          (String.utf8EncodeChar c).length := by
        rw [List.length_take]
        omega
      refine ⟨[], (String.utf8EncodeChar c).take limit, List.nil_prefix, fun _ => ⟨c, ?_, ?_⟩, ?_⟩
      · exact (List.prefix_cons_inj c).mpr List.nil_prefix
      · exact ⟨List.take_prefix .., fun hall => absurd (congrArg List.length hall) hshort.ne⟩
      · rw [List.flatMap_cons, List.take_append_of_le_length (Nat.le_of_not_le hfits)]
        rfl

/-! ### Parts of characters -/

theorem eq_of_utf8EncodeChar_append {c other : Char} {more rest : List UInt8}
    (h : String.utf8EncodeChar c ++ more = String.utf8EncodeChar other ++ rest) : c = other := by
  have hbytes := congrArg List.toByteArray h
  rw [List.toByteArray_append, List.toByteArray_append, ← List.utf8Encode_singleton,
    ← List.utf8Encode_singleton] at hbytes
  have hdecoded := congrArg (ByteArray.utf8DecodeChar? · 0) hbytes
  simpa only [List.utf8DecodeChar?_utf8Encode_singleton_append, Option.some.injEq] using hdecoded

/-- Whole characters in front do not matter for what is UTF-8. -/
theorem isValidUTF8_append_iff (kept : List Char) (part : List UInt8) :
    (kept.flatMap String.utf8EncodeChar ++ part).toByteArray.IsValidUTF8 ↔
      part.toByteArray.IsValidUTF8 := by
  induction kept with
  | nil => rfl
  | cons c rest ih =>
    rw [← ih, List.flatMap_cons, List.append_assoc, List.toByteArray_append,
      ← List.utf8Encode_singleton, ByteArray.isValidUTF8_utf8Encode_singleton_append_iff]

/-- A part of a character is no UTF-8, unless there is nothing in it. -/
theorem eq_nil_of_isValidUTF8 {part : List UInt8} {next : Char}
    (hpart : part <+: String.utf8EncodeChar next) (hne : part ≠ String.utf8EncodeChar next)
    (hvalid : part.toByteArray.IsValidUTF8) : part = [] := by
  obtain ⟨text, htext⟩ := hvalid
  have hbytes : part = text.flatMap String.utf8EncodeChar := List.toByteArray_inj.mp htext
  cases text with
  | nil => exact hbytes
  | cons c rest =>
    -- the part starts with all bytes of a character, and that can be no other one
    rw [List.flatMap_cons] at hbytes
    obtain ⟨tail, htail⟩ := hpart
    have hsame : c = next := by
      apply @eq_of_utf8EncodeChar_append c next (rest.flatMap String.utf8EncodeChar ++ tail) []
      rw [← List.append_assoc, ← hbytes, htail, List.append_nil]
    subst hsame
    have hlength : (String.utf8EncodeChar c).length ≤ part.length := by
      rw [hbytes, List.length_append]
      exact Nat.le_add_right ..
    exact absurd (List.IsPrefix.eq_of_length_le ⟨tail, htail⟩ hlength) hne

namespace IsCut

variable {limit : Nat} {content kept : List Char} {part : List UInt8}

/-- What is cut is UTF-8 exactly when the limit falls into no character. -/
theorem isValidUTF8_iff (h : IsCut limit content kept part) :
    (kept.flatMap String.utf8EncodeChar ++ part).toByteArray.IsValidUTF8 ↔ part = [] := by
  rw [isValidUTF8_append_iff]
  constructor
  · intro hvalid
    by_contra hne
    obtain ⟨next, -, hpart, hproper⟩ := h.inside hne
    exact hne (eq_nil_of_isValidUTF8 hpart hproper hvalid)
  · rintro rfl
    exact ⟨[], rfl⟩

theorem eq_of_length_le (h : IsCut limit content kept part)
    (hlength : (content.flatMap String.utf8EncodeChar).length ≤ limit) :
    kept = content ∧ part = [] := by
  have hall : kept.flatMap String.utf8EncodeChar ++ part =
      content.flatMap String.utf8EncodeChar := by rw [h.bytes, List.take_of_length_le hlength]
  have hnil : part = [] := h.isValidUTF8_iff.mp ⟨content, congrArg List.toByteArray hall⟩
  rw [hnil, List.append_nil] at hall
  have hsame : String.ofList kept = String.ofList content :=
    utf8_inj.mp (by simpa only [utf8, String.toList_ofList] using hall)
  exact ⟨by simpa using congrArg String.toList hsame, hnil⟩

end IsCut

/-! ### String literals -/

namespace Operand

variable {names : List String} {parameter : Parameter} {token : String}

/-- Where a string may stand, the string tag marks the string literals. -/
theorem head?_bytes_eq_stringTag_iff {value : Value}
    (hparameter : parameter = .string ∨ parameter = .either)
    (h : value? names (parameter, token) = some value) (address? : String → Option Nat) :
    (value.bytes address?).head? = some stringTag ↔
      ∃ content, Token.string? token = some content := by
  constructor
  · intro htag
    cases denotes_of_value? h with
    | string hcontent | eitherString hcontent => exact ⟨_, hcontent⟩
    | stringVariable _ | eitherVariable _ | eitherNumber _ =>
      exact absurd (Option.some.inj htag) (by decide)
    | number | numberVariable | label | declaration | «variable» => simp at hparameter
  · rintro ⟨content, hcontent⟩
    rw [value?_of_string? hparameter hcontent] at h
    obtain rfl := Option.some.inj h
    rfl

end Operand

theorem Operand.Value.bytes_text_of_isCut {content : String} {kept : List Char} {part : List UInt8}
    (h : IsCut 65535 content.toList kept part) (address? : String → Option Nat) :
    let payload := kept.flatMap String.utf8EncodeChar ++ part
    (Value.text content).bytes address? = 3 :: (wordBytes payload.length ++ payload) := by
  intro payload
  have hpayload : payload = (utf8 content).take 65535 := h.bytes
  rw [hpayload, List.length_take, Nat.min_comm]
  rfl

theorem Assembly.encoding_of_string? (assembly : Assembly) {parameter : Parameter}
    {token content : String} (hparameter : parameter = .string ∨ parameter = .either)
    (h : Token.string? token = some content) :
    assembly.encoding (parameter, token) =
      (Operand.Value.text content).bytes assembly.labels.offset? := by
  rw [encoding, value?, Operand.value?_of_string? hparameter h]
  rfl

/-- String payloads are text up to a part of a character. In a usable assembly the output is made of
the opcodes and the bytes of the operands; where a string may stand, the string tag marks the string
literals; and a string literal is emitted as the tag, the length of a payload and the payload. That
is the UTF-8 of characters from the front of the content, of all if they have at most 65535 bytes,
and after them the part of the next character that the limit falls into. It is UTF-8 exactly when
there is no such part. -/
theorem string_payloads (commands : Command.Table) (lines : List Line)
    (husable : (assemble commands lines).assembly.isUsable = true) :
    let assembly := (assemble commands lines).assembly
    assembly.output.toList =
        (lines.filterMap (Line.command? commands)).flatMap (fun (command, operands) =>
          command.opcode :: operands.flatMap assembly.encoding) ∧
      ∀ operand ∈ operandsOf commands lines, operand.1 = .string ∨ operand.1 = .either →
        ((assembly.encoding operand).head? = some 3 ↔
          ∃ content, Token.string? operand.2 = some content) ∧
        ∀ content, Token.string? operand.2 = some content →
          ∃ kept part, IsCut 65535 content.toList kept part ∧
            let payload := kept.flatMap String.utf8EncodeChar ++ part
            assembly.encoding operand = 3 :: (wordBytes payload.length ++ payload) ∧
            (payload.toByteArray.IsValidUTF8 ↔ part = []) ∧
            ((utf8 content).length ≤ 65535 → kept = content.toList ∧ part = []) := by
  intro assembly
  refine ⟨output_eq_encodings husable, ?_⟩
  rintro ⟨parameter, token⟩ hmem hparameter
  obtain ⟨-, -, value, -, -, hvalue⟩ := exists_value_of_mem husable hmem
  have hencoding : assembly.encoding (parameter, token) =
      value.bytes assembly.labels.offset? := by
    rw [Assembly.encoding, hvalue]
    rfl
  constructor
  · rw [hencoding]
    exact Operand.head?_bytes_eq_stringTag_iff hparameter hvalue _
  · intro content hcontent
    obtain ⟨kept, part, hcut⟩ := exists_isCut 65535 content.toList
    refine ⟨kept, part, hcut, ?_, hcut.isValidUTF8_iff, hcut.eq_of_length_le⟩
    rw [assembly.encoding_of_string? hparameter hcontent]
    exact Operand.Value.bytes_text_of_isCut hcut _

/-- A character of two bytes that is not cut. -/
theorem string_payloads_say :
    let lines : List Line := [⟨1, "say \"é\" 3", ["say", "\"é\"", "3"], none⟩]
    let assembly := (assemble greetingCommands lines).assembly
    let operand : Operand := (.string, "\"é\"")
    assembly.isUsable = true ∧ operand ∈ operandsOf greetingCommands lines ∧
      Token.string? operand.2 = some "é" ∧
      assembly.encoding operand = [3, 2, 0, 0xC3, 0xA9] ∧
      [0xC3, 0xA9].toByteArray.IsValidUTF8 := by
  intro lines assembly operand
  have husable : assembly.isUsable = true := by decide +kernel
  have hmem : operand ∈ operandsOf greetingCommands lines := by decide +kernel
  have hcontent : Token.string? operand.2 = some "é" := by decide +kernel
  obtain ⟨-, hpayloads⟩ := string_payloads greetingCommands lines husable
  obtain ⟨kept, part, -, hencoding, hvalid, hwhole⟩ :=
    (hpayloads operand hmem (.inl rfl)).2 "é" hcontent
  obtain ⟨rfl, rfl⟩ := hwhole (by decide)
  exact ⟨husable, hmem, hcontent, hencoding, hvalid.mpr rfl⟩

/-! ### A cut inside a character -/

theorem length_utf8_replicate (count : Nat) :
    ((List.replicate count 'é').flatMap String.utf8EncodeChar).length = 2 * count := by
  have hsize : (String.utf8EncodeChar 'é').length = 2 := by decide
  rw [List.length_flatMap, List.map_replicate, hsize, List.sum_replicate_nat, Nat.mul_comm]

/-- A limit that falls into the last of some characters of two bytes. -/
theorem isCut_replicate (count : Nat) :
    IsCut (2 * count + 1) (List.replicate (count + 1) 'é') (List.replicate count 'é') [0xC3] where
  front := by
    rw [List.replicate_succ']
    exact List.prefix_append ..
  inside _ := by
    have hwhole : List.replicate count 'é' ++ ['é'] = List.replicate (count + 1) 'é' :=
      List.replicate_succ'.symm
    exact ⟨'é', ⟨[], by rw [List.append_nil, hwhole]⟩, ⟨[0xA9], by decide⟩, by decide⟩
  bytes := by
    have hlast : ['é'].flatMap String.utf8EncodeChar = [0xC3, 0xA9] := by decide
    rw [List.replicate_succ', List.flatMap_append, hlast, ← length_utf8_replicate,
      List.take_length_add_append]
    rfl

theorem assemble_quote {commands : Command.Table} {line : Line} {command : Command}
    {content : String}
    (hcommand : line.command? commands = some (command, [(.string, quote content)])) :
    let assembly := (assemble commands [line]).assembly
    assembly.isUsable = true ∧ assembly.output.toList =
      command.opcode :: (Operand.Value.text content).bytes assembly.labels.offset? := by
  intro assembly
  obtain ⟨htokens, hlabel⟩ := Statement.ofTokens_of_command? hcommand
  have hcontent := Token.string?_quote content
  have hoperands : operandsOf commands [line] = [(.string, quote content)] := by
    rw [operandsOf_cons, operandsOf_nil, List.append_nil, Line.operands_of_command? hcommand]
  have hwellFormed : WellFormed commands [line] := by
    refine ⟨by simp [hlabel], ?_, ?_⟩
    · intro other hmem
      obtain rfl := List.mem_singleton.mp hmem
      refine Line.inOrder_iff.mpr fun problem => ?_
      rw [htokens]
      nofun
    · intro before operand after hsplit
      have hmem : operand ∈ operandsOf commands [line] := by simp [hsplit]
      rw [hoperands] at hmem
      obtain rfl := List.mem_singleton.mp hmem
      exact .inl (by rw [hcontent]; rfl)
  refine ⟨hwellFormed.isUsable, ?_⟩
  rw [output_eq_encodings hwellFormed.isUsable, ← assembly.encoding_of_string? (.inl rfl) hcontent]
  simp [hcommand, assembly]

/-- A text of 32768 characters with two bytes each is cut inside the last of them: the payload is no
UTF-8. -/
theorem not_isValidUTF8_payload :
    let content := String.ofList (List.replicate 32768 'é')
    let source := quotedCommand "SAY" [⟨[' '], content, by simp⟩]
    let assembly := (compile ((∅ : Command.Table).add ⟨"SAY", 1, [.string]⟩) source).assembly
    assembly.isUsable = true ∧
      ∃ payload, assembly.output.toList = 1 :: 3 :: 0xFF :: 0xFF :: payload ∧
        payload.length = 65535 ∧ ¬ payload.toByteArray.IsValidUTF8 := by
  intro content source assembly
  have hmem : (⟨"SAY", 1, [.string]⟩ : Command) ∈
      ((∅ : Command.Table).add ⟨"SAY", 1, [.string]⟩).toList := by decide
  obtain ⟨line, hsource, -, -, hcommand⟩ :=
    @exists_line_quotedCommand _ _ hmem (by decide) [⟨[' '], content, by simp⟩] rfl
  have hassembly : assembly = (assemble ((∅ : Command.Table).add ⟨"SAY", 1, [.string]⟩)
      [line]).assembly := by
    rw [← hsource]
    rfl
  obtain ⟨husable, hcode⟩ := assemble_quote hcommand
  rw [← hassembly] at husable hcode
  have hcut : IsCut 65535 content.toList (List.replicate 32767 'é') [0xC3] := by
    rw [String.toList_ofList]
    exact isCut_replicate 32767
  have hlength :
      ((List.replicate 32767 'é').flatMap String.utf8EncodeChar ++ [0xC3]).length = 65535 := by
    rw [List.length_append, length_utf8_replicate, List.length_singleton]
  have hbytes := Operand.Value.bytes_text_of_isCut hcut assembly.labels.offset?
  dsimp only at hbytes
  rw [hlength] at hbytes
  exact ⟨husable, _, hcode.trans (congrArg _ hbytes), hlength,
    fun hvalid => absurd (hcut.isValidUTF8_iff.mp hvalid) (by decide)⟩

end EventScript
