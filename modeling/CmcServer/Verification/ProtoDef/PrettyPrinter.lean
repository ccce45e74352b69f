import CmcServer.Verification.ProtoDef.CodeEndings

/-! # The pretty-printer and the generated code

When `beautify` changes nothing but the whitespace of the strings that the generators hand to
it. -/

namespace CmcServer.ProtoDef

/-! ## Definitions -/

theorem tidy_bitFieldsDefinition {fields : List BitField}
    (h : ∀ field ∈ fields, Flat field.name) : Tidy (bitFieldsDefinition fields) := by
  induction fields with
  | nil => exact tidy_empty
  | cons field fields ih =>
      have hsign : Flat (if field.signed then "" else "u") := by
        split
        · exact flat_empty
        · exact flat_ofList rfl
      have hline : ∀ sign, Flat sign →
          Line s!"{sign}int{getBytes field.size * 8}_t {field.name};" := fun sign hsign =>
        hsign.lit rfl |>.append (flat_nat _) |>.lit rfl |>.append (h field (by simp))
          |>.line rfl rfl
      exact (hline _ hsign).tidy.append (ih fun other hother => h other (by simp [hother]))

theorem tidy_declaration {code rest : String} (hcode : Kept 0 code) (hrest : Line rest) :
    Tidy (code ++ rest) :=
  .inr (ends_append (hcode.mono (by decide)) (ends_line hrest) (by decide))

theorem tidy_fieldDefinition {name : String} (hname : Flat name) {t : TypeTree}
    {code : Option String} {s : String} (hcode : ∀ s, code = some s → Kept 0 s)
    (h : fieldDefinition name t code = some s) : Tidy s := by
  rw [fieldDefinition] at h
  split at h
  · rw [← Option.some.inj h]
    exact tidy_empty
  · obtain ⟨code, hsome, rfl⟩ := Option.map_eq_some_iff.mp h
    have hline : Line s!" {name};" := (flat_ofList rfl).append hname |>.line rfl rfl
    exact tidy_declaration (hcode code hsome) hline

theorem Tidy.kept_block {head s : String} (hs : Tidy s) (hhead : Flat head) :
    Kept 0 (head ++ "\x7b" ++ s ++ "\x7d") := by
  cases hs with
  | inl hs => exact ProtoDef.kept_block hhead hs (by simp)
  | inr hs => exact ProtoDef.kept_block hhead hs (by simp)

theorem length_line : Line " length;" := line_ofList rfl rfl

theorem elements_line : Line "* elements;" := line_ofList rfl rfl

theorem value_line : Line " value;" := line_ofList rfl rfl

mutual

/-- The braces of a declaration always have room. -/
theorem TypeTree.definitionText_kept (t : TypeTree) (ht : t.Plain) {s : String}
    (h : t.definitionText = some s) : Kept 0 s := by
  cases t with
  | typedef name base =>
      rw [TypeTree.definitionText] at h
      rw [← Option.some.inj h]
      exact kept_of_flat (Flat.lit ht rfl) 0
  | native name ctype size =>
      rw [TypeTree.definitionText] at h
      rw [← Option.some.inj h]
      exact kept_of_flat ht.2 0
  | void => cases h
  | switch name isAbstract compareTo cases =>
      rw [TypeTree.definitionText] at h
      split at h
      · rw [← Option.some.inj h]
        exact kept_of_flat ht.1 0
      · obtain ⟨code, hcode, h⟩ := Option.bind_eq_some_iff.mp h
        rw [← Option.some.inj h]
        exact (cases.definitionText_tidy ht.2 hcode).kept_block (flat_ofList rfl)
  | container fields =>
      rw [TypeTree.definitionText] at h
      obtain ⟨code, hcode, h⟩ := Option.bind_eq_some_iff.mp h
      rw [← Option.some.inj h]
      exact (fields.definitionText_tidy ht hcode).kept_block (flat_ofList rfl)
  | array count element =>
      rw [TypeTree.definitionText] at h
      obtain ⟨countCode, hcount, h⟩ := Option.bind_eq_some_iff.mp h
      obtain ⟨code, hcode, h⟩ := Option.bind_eq_some_iff.mp h
      rw [← Option.some.inj h]
      have hlength := tidy_declaration (count.definitionText_kept ht.1 hcount) length_line
      have helements := tidy_declaration (element.definitionText_kept ht.2 hcode) elements_line
      exact (hlength.append helements).kept_block (flat_ofList rfl)
  | restArray element =>
      rw [TypeTree.definitionText] at h
      obtain ⟨code, hcode, h⟩ := Option.bind_eq_some_iff.mp h
      rw [← Option.some.inj h]
      have hlength : Line "int length;" := line_ofList rfl rfl
      have helements := tidy_declaration (element.definitionText_kept ht hcode) elements_line
      exact (hlength.tidy.append helements).kept_block (flat_ofList rfl)
  | bitfield fields fits =>
      rw [TypeTree.definitionText] at h
      rw [← Option.some.inj h]
      exact (tidy_bitFieldsDefinition ht).kept_block (flat_ofList rfl)
  | option base =>
      rw [TypeTree.definitionText] at h
      obtain ⟨code, hcode, h⟩ := Option.bind_eq_some_iff.mp h
      rw [← Option.some.inj h]
      have hpresent : Line "bool present;" := line_ofList rfl rfl
      have hvalue := tidy_declaration (base.definitionText_kept ht hcode) value_line
      exact (hpresent.tidy.append hvalue).kept_block (flat_ofList rfl)

theorem FieldTrees.definitionText_tidy (fields : FieldTrees) (hfields : fields.Plain) {s : String}
    (h : fields.definitionText = some s) : Tidy s := by
  cases fields with
  | nil =>
      rw [FieldTrees.definitionText] at h
      rw [← Option.some.inj h]
      exact tidy_empty
  | cons name t fields =>
      obtain ⟨hname, ht, hfields⟩ := hfields
      rw [FieldTrees.definitionText] at h
      obtain ⟨code, hcode, h⟩ := Option.bind_eq_some_iff.mp h
      obtain ⟨rest, hrest, h⟩ := Option.bind_eq_some_iff.mp h
      rw [← Option.some.inj h]
      have hfield := tidy_fieldDefinition hname (fun _ => t.definitionText_kept ht) hcode
      exact hfield.append (fields.definitionText_tidy hfields hrest)

theorem CaseTrees.definitionText_tidy (cases : CaseTrees) (hcases : cases.Plain) {s : String}
    (h : cases.definitionText = some s) : Tidy s := by
  cases cases with
  | nil =>
      rw [CaseTrees.definitionText] at h
      rw [← Option.some.inj h]
      exact tidy_empty
  | default t =>
      rw [CaseTrees.definitionText] at h
      exact tidy_fieldDefinition flat_empty (fun _ => t.definitionText_kept hcases) h
  | cons name t value cases =>
      obtain ⟨hname, ht, _, hcases⟩ := hcases
      rw [CaseTrees.definitionText] at h
      obtain ⟨code, hcode, h⟩ := Option.bind_eq_some_iff.mp h
      obtain ⟨rest, hrest, h⟩ := Option.bind_eq_some_iff.mp h
      rw [← Option.some.inj h]
      have hfield := tidy_fieldDefinition hname (fun _ => t.definitionText_kept ht) hcode
      exact hfield.append (cases.definitionText_tidy hcases hrest)

end

theorem definitionCode_hasRoom {name : String} (hname : Flat name) {t : TypeTree} (ht : t.Plain)
    {s : String} (h : definitionCode name t = some s) : BracesHaveRoom [] s.toList := by
  rw [definitionCode] at h
  obtain ⟨code, hcode, h⟩ := Option.bind_eq_some_iff.mp h
  rw [← Option.some.inj h]
  have hhead : Flat "typedef " := flat_ofList rfl
  have htail : Flat s!" {name}_t;" := (flat_ofList rfl).append hname |>.lit rfl
  have hkept := ((kept_of_flat hhead 0).append (t.definitionText_kept ht hcode)).append
    (kept_of_flat htail 0)
  exact hkept.room [] le_rfl

/-! ## Readers and writers -/

/-- Between complete lines a piece is kept if nothing is lost in it. -/
theorem function_hasRoom_iff {head first code last : String} {e : Ending} (hhead : Flat head)
    (hfirst : Line first) (hcode : Ends e code) (hlast : Line last) :
    BracesHaveRoom [] (head ++ "\x7b" ++ (first ++ code ++ last) ++ "\x7d").toList ↔
      e ≠ .lost := by
  rw [bracesHaveRoom_block hhead (((ends_line hfirst).seq hcode).seq (ends_line hlast)) le_rfl]
  cases e <;> decide

theorem flat_sourceText (t : TypeTree) : Flat (sourceText t) := by
  cases t <;> exact flat_ofList rfl

section

variable {rnd : ℕ → ℕ} {name s : String} {t : TypeTree}

theorem writeCode_hasRoom_iff (hname : Flat name) (ht : t.Plain)
    (h : writeCode rnd name t = some s) : BracesHaveRoom [] s.toList ↔ t.ending ≠ .lost := by
  rw [writeCode] at h
  obtain ⟨⟨code, k⟩, hcode, h⟩ := Option.bind_eq_some_iff.mp h
  have hends := t.genText_ends ht (by simp) (flat_sourceText t) 0 code k hcode
  simp only at h
  split at h
  · rw [← Option.some.inj h]
    have hhead : Flat s!"int protocol_write_{name}(uint8_t* data, int size, {name}_t* packet) " :=
      (flat_ofList rfl).append hname |>.lit rfl |>.append hname |>.lit rfl
    exact function_hasRoom_iff hhead (line_ofList rfl rfl) hends (line_ofList rfl rfl)
  · rename_i hfixed
    rw [← Option.some.inj h]
    have hhead : Flat s!"void protocol_write_{name}(uint8_t* data, {name}_t* packet) " :=
      (flat_ofList rfl).append hname |>.lit rfl |>.append hname |>.lit rfl
    rw [bracesHaveRoom_block hhead hends le_rfl, t.ending_of_fixed (by simpa using hfixed)]
    decide

theorem readCode_hasRoom_iff (hname : Flat name) (ht : t.Plain)
    (h : readCode rnd name t = some s) : BracesHaveRoom [] s.toList ↔ t.ending ≠ .lost := by
  rw [readCode] at h
  obtain ⟨⟨code, k⟩, hcode, h⟩ := Option.bind_eq_some_iff.mp h
  have hsource : Flat (if t.isVariable then sourceText t else "(&packet)") := by
    split
    · exact flat_sourceText t
    · exact flat_ofList rfl
  have hends := t.genText_ends ht (by simp) hsource 0 code k hcode
  simp only at h
  split at h
  · rw [← Option.some.inj h]
    have hhead : Flat (
        s!"int protocol_read_{name}(tick_arena_t* arena, uint8_t* data, int size, " ++
        s!"{name}_t* packet) ") :=
      (flat_ofList rfl).append hname |>.lit rfl |>.append (hname.lit rfl)
    exact function_hasRoom_iff hhead (line_ofList rfl rfl) hends (line_ofList rfl rfl)
  · rw [← Option.some.inj h]
    have hhead : Flat s!"{name}_t protocol_read_{name}(uint8_t* data) " :=
      hname.lit rfl |>.append hname |>.lit rfl
    have hpacket : Line s!"{name}_t packet;" := hname.line rfl rfl
    exact function_hasRoom_iff hhead hpacket hends (line_ofList rfl rfl)

end

/-! ## The other functions -/

/-- The initialiser of a packet has its zero on the line of its closing brace. -/
theorem ends_zero : Ends .midLine " 0 " := by
  have hflat : Flat " 0 " := flat_ofList rfl
  refine ⟨kept_of_flat hflat 1, fun before hbefore hroom => ?_⟩
  have hlist : " 0 ".toList.reverse = [' ', '0', ' '] := by
    rw [show " 0 ".toList = [' ', '0', ' '] by apply String.toList_ofList]
    rfl
  rw [hlist] at hroom
  obtain hroom | hblank := hroom
  · simp [blanksBehind, isBlank] at hroom
  · exact absurd (hblank '0' (by simp)) (by decide)

theorem dispatchCode_no_room {name : String} (hname : Flat name) (t : TypeTree) :
    ¬ BracesHaveRoom [] (dispatchCode name t).toList := by
  have hhead : Flat s!"err_t dispatch_{name}(client_t* client, uint8_t* data, int size)" :=
    (flat_ofList rfl).append hname |>.lit rfl
  have hpacket : Flat s!"{name}_t packet = " := hname.lit rfl
  have hinitialiser := (ends_zero.block hpacket).lost_append ";"
  have herr : Line "err_t err = NO_ERROR;" := line_ofList rfl rfl
  have hinner := ends_append herr.tidy.kept hinitialiser (by decide)
  intro hroom
  have hending := (bracesHaveRoom_block hhead (hinner.lost_append _) le_rfl).mp hroom
  exact absurd hending (by decide)

theorem Tidy.function_hasRoom {head s : String} (hs : Tidy s) (hhead : Flat head) :
    BracesHaveRoom [] (head ++ "\x7b" ++ s ++ "\x7d").toList :=
  (hs.kept_block hhead).room [] le_rfl

theorem tidy_sendCalls {name : String} (hname : Flat name) (t : TypeTree) :
    Tidy (sendCalls name t) := by
  have hwrite : Flat s!"int packet_len = protocol_write_{name}(buffer + pid_len, " :=
    (flat_ofList rfl).append hname |>.lit rfl
  have hcheck : Flat s!"CHECK_ERROR(g_server_config.max_send_packet_size - pid_len >= {t.getSize}, "
      :=
    (flat_ofList rfl).append (flat_int _) |>.lit rfl
  have hfixed : Flat s!"protocol_write_{name}(buffer + pid_len, packet);" :=
    (flat_ofList rfl).append hname |>.lit rfl
  have hsend : Line s!"CHECK_AND_RETHROW(server_send_packet(client, buffer, {t.getSize}));" :=
    (flat_ofList rfl).append (flat_int _) |>.line rfl rfl
  rw [sendCalls]
  split
  · exact hwrite.lit rfl |>.lit rfl |>.lit rfl |>.line rfl rfl |>.tidy
  · exact (hsend.after (hcheck.lit rfl |>.append hfixed |>.lit rfl)).tidy

theorem sendCode_hasRoom {name packetId : String} (hname : Flat name) (hid : Flat packetId)
    (t : TypeTree) : BracesHaveRoom [] (sendCode name packetId t).toList := by
  have hhead : Flat s!"err_t send_{name}(client_t* client, {name}_t* packet)" :=
    (flat_ofList rfl).append hname |>.lit rfl |>.append hname |>.lit rfl
  have hpid : Line s!"g_server_config.max_send_packet_size, {packetId});" :=
    (flat_ofList rfl).append hid |>.line rfl rfl
  have hpid' : Tidy ("int pid_len = protocol_write_varint(buffer, " ++
      s!"g_server_config.max_send_packet_size, {packetId});") :=
    (hpid.after (flat_ofList rfl)).tidy
  have herror : Line "buffer_pool_return_protocol_send(buffer);" := line_ofList rfl rfl
  have herror' : Tidy ("if (IS_ERROR(err)) " ++ "\x7b" ++
      "buffer_pool_return_protocol_send(buffer);" ++ "\x7d\n") :=
    .inr (herror.tidy.closed (flat_ofList rfl) closer_newline)
  exact Tidy.function_hasRoom ((tidy_ofList rfl rfl).line rfl rfl |>.line rfl rfl |>.append hpid'
    |>.line rfl rfl |>.line rfl rfl |>.append (tidy_sendCalls hname t) |>.line rfl rfl
    |>.line rfl rfl |>.append herror' |>.line rfl rfl) hhead

theorem tidy_mapperCode {phase : String} (hphase : Flat phase) {mapper : List (String × String)}
    (h : ∀ packet ∈ mapper, Flat packet.1 ∧ Flat packet.2) : Tidy (mapperCode phase mapper) := by
  induction mapper with
  | nil => exact tidy_empty
  | cons packet mapper ih =>
      obtain ⟨id, name⟩ := packet
      obtain ⟨hid, hname⟩ := h (id, name) (by simp)
      have hrest := ih fun other hother => h other (by simp [hother])
      have hhead : Flat s!"case {id}: " := (flat_ofList rfl).append hid |>.lit rfl
      have hcall : Line
          s!"CHECK_AND_RETHROW(dispatch_{phase}_packet_{name}(client, data, size));" :=
        (flat_ofList rfl).append hphase |>.lit rfl |>.append hname |>.line rfl rfl
      refine Tidy.append ?_ hrest
      split
      · exact tidy_empty
      · exact .inr (hcall.tidy.closed hhead closer_break)

theorem tidy_phaseCode {phase state : String} (hphase : Flat phase) (hstate : Flat state)
    {mapper : List (String × String)} (h : ∀ packet ∈ mapper, Flat packet.1 ∧ Flat packet.2) :
    Tidy (phaseCode phase state mapper) := by
  have hcases : Tidy (mapperCode phase mapper ++
      "default: CHECK_FAIL_ERROR(ERROR_PROTOCOL, \"Got unknown packet id: %d\", packet_id);") :=
    (tidy_mapperCode hphase h).line rfl rfl
  have hid : Flat "switch (packet_id) " := flat_ofList rfl
  have hswitch := hcases.closed hid closer_newline
  have hhead : Flat s!"case PROTOCOL_{state}: " := (flat_ofList rfl).append hstate |>.lit rfl
  exact .inr (Tidy.closed (.inr hswitch) hhead closer_break)

theorem dispatcherCode_hasRoom {handshaking status login : List (String × String)}
    (h : ∀ packet ∈ handshaking ++ status ++ login, Flat packet.1 ∧ Flat packet.2) :
    BracesHaveRoom [] (dispatcherCode handshaking status login).toList := by
  have hhandshaking : Tidy (phaseCode "handshaking" "HANDSHAKING" handshaking) :=
    tidy_phaseCode (flat_ofList rfl) (flat_ofList rfl) fun packet hp => h packet (by simp [hp])
  have hstatus : Tidy (phaseCode "status" "STATUS" status) :=
    tidy_phaseCode (flat_ofList rfl) (flat_ofList rfl) fun packet hp => h packet (by simp [hp])
  have hlogin : Tidy (phaseCode "login" "LOGIN" login) :=
    tidy_phaseCode (flat_ofList rfl) (flat_ofList rfl) fun packet hp => h packet (by simp [hp])
  have hswitch : Tidy (phaseCode "handshaking" "HANDSHAKING" handshaking ++
      phaseCode "status" "STATUS" status ++ phaseCode "login" "LOGIN" login ++
      "default: CHECK_FAIL(\"Got to invalid state: %d\", client->state);") :=
    ((hhandshaking.append hstatus).append hlogin).line rfl rfl
  have hstate : Flat "switch (client->state) " := flat_ofList rfl
  have hblock := hswitch.closed hstate closer_newline
  exact Tidy.function_hasRoom ((tidy_ofList rfl rfl).line rfl rfl |>.line rfl rfl |>.line rfl rfl
    |>.line rfl rfl |>.line rfl rfl |>.line rfl rfl |>.line rfl rfl |>.append (.inr hblock)
    |>.line rfl rfl |>.line rfl rfl) (flat_ofList rfl)

/-! ## Every generated string -/

/-- There are no braces in the names that a string is generated from. -/
def Emitted.Plain : Emitted → Prop
  | .definition name t | .read _ name t | .write _ name t | .dispatch name t =>
      Flat name ∧ t.Plain
  | .send name packetId t => Flat name ∧ Flat packetId ∧ t.Plain
  | .dispatchPacket handshaking status login =>
      ∀ packet ∈ handshaking ++ status ++ login, Flat packet.1 ∧ Flat packet.2

/-- It is not a dispatch function, and in a reader or writer no option comes last in an element of
an array or in a case of a switch. -/
def Emitted.Closed : Emitted → Prop
  | .read _ _ t | .write _ _ t => t.ending ≠ .lost
  | .dispatch _ _ => False
  | .definition _ _ | .send _ _ _ | .dispatchPacket _ _ _ => True

theorem Emitted.hasRoom_iff (emitted : Emitted) (hplain : emitted.Plain) {code : String}
    (h : emitted.code = some code) : BracesHaveRoom [] code.toList ↔ emitted.Closed := by
  cases emitted with
  | definition name t => exact iff_of_true (definitionCode_hasRoom hplain.1 hplain.2 h) trivial
  | read rnd name t => exact readCode_hasRoom_iff hplain.1 hplain.2 h
  | write rnd name t => exact writeCode_hasRoom_iff hplain.1 hplain.2 h
  | dispatch name t =>
      obtain rfl : dispatchCode name t = code := Option.some.inj h
      exact iff_of_false (dispatchCode_no_room hplain.1 t) id
  | send name packetId t =>
      obtain rfl : sendCode name packetId t = code := Option.some.inj h
      exact iff_of_true (sendCode_hasRoom hplain.1 hplain.2.1 t) trivial
  | dispatchPacket handshaking status login =>
      obtain rfl : dispatcherCode handshaking status login = code := Option.some.inj h
      have hroom := dispatcherCode_hasRoom hplain
      exact iff_of_true hroom trivial

/-- `beautify` changes nothing but the whitespace of a generated string if every closing brace has
room in front of it. Where no name has a brace in it, that depends on the string's type tree. -/
theorem beautify_preserves_iff (emitted : Emitted) (code : String)
    (h : emitted.code = some code) :
    (deleteWhitespace (beautify code) = deleteWhitespace code ↔ BracesHaveRoom [] code.toList) ∧
      (emitted.Plain →
        (deleteWhitespace (beautify code) = deleteWhitespace code ↔ emitted.Closed)) := by
  refine ⟨beautify_keeps_iff code, fun hplain => ?_⟩
  rw [beautify_keeps_iff]
  exact emitted.hasRoom_iff hplain h

/-- The sender of a packet with one number comes out as it went in. -/
theorem beautify_preserves_compress :
    deleteWhitespace (beautify (sendCode "login_packet_compress" "0x03"
        (.container (.cons "threshold" (.native "varint" "int32_t" (-1)) .nil)))) =
      deleteWhitespace (sendCode "login_packet_compress" "0x03"
        (.container (.cons "threshold" (.native "varint" "int32_t" (-1)) .nil))) :=
  ((beautify_preserves_iff (.send "login_packet_compress" "0x03"
      (.container (.cons "threshold" (.native "varint" "int32_t" (-1)) .nil))) _ rfl).2
    ⟨flat_ofList rfl, flat_ofList rfl, flat_ofList rfl, ⟨flat_ofList rfl, flat_ofList rfl⟩,
      trivial⟩).mpr trivial

/-- The initialiser of the packet in a dispatch function loses its zero. -/
theorem dispatch_loses_zero :
    ¬ ∀ (emitted : Emitted) (code : String), emitted.code = some code →
      deleteWhitespace (beautify code) = deleteWhitespace code := by
  intro h
  have hkeeps := h (.dispatch "status_packet_ping_start" (.container .nil)) _ rfl
  rw [beautify_keeps_iff] at hkeeps
  exact dispatchCode_no_room (flat_ofList rfl) _ hkeeps

end CmcServer.ProtoDef
