import InsenseCVM.Bytecode.Instruction

/-!
# Where the two decoders agree

The skipper passes over an instruction correctly when it consumes as many bytes as the handler
decodes. `Agreeing` lists, opcode by opcode, when that is so; `skipsAligned_iff` is the
statement about a whole run of instructions.
-/

namespace InsenseCVM
open Execution ByteStream

variable {this : Reading} {bytecode : UInt8} {f g : File} {bs r : List UInt8} {k n : ℕ}

/-- The skipper consumes, from the same place, as many bytes as the handler. -/
def SkipAgrees (this : Reading) (bytecode : UInt8) (op : Opcode) (f : File) : Prop :=
  ∃ n, Consumes (decodeOperands this op) f n ∧
    Consumes (skipOperands this.inProject bytecode op) f n

/-- Fields that happen to read as a struct name, a count and as many fields. -/
def PassesAsNamed : List Field → Prop
  | field1 :: field2 :: fields =>
    fields.length = 4 ∧
      ((field1.type ≠ 0 ∧ field2.type = 5 ∧ ∃ bs, field2.name.bytes = typeString :: bs) ∨
        (field1.type = 0 ∧ ∃ b bs, field1.name.bytes = b :: typeString :: bs))
  | _ => False

/-- When the two decoders agree on an instruction, `following` being the bytes after it. -/
def Agreeing (this : Reading) (bytecode : UInt8) (following : List UInt8) : Instruction → Prop
  | .component name _ => literal name.bytes = this.name
  | .call _ parameters => parameters = 0
  | .constructor _ => this.running = false
  | .behaviourJump _ | .jump _ | .ifClause _ | .elseClause _ | .projectEntry _ => False
  | .structConstructor fields => PassesAsNamed fields.items
  | .blockEnd =>
    this.inProject = true →
      following = [] ∨ (bytecode = Opcode.projectExit.byte ∧
        following.head? ≠ some Opcode.projectExit.byte)
  | _ => True

/-! ### One instruction -/

theorem SkipAgrees.of_reads {op : Opcode} (hexec : Reads (decodeOperands this op) bs ())
    (hskip : Reads (skipOperands this.inProject bytecode op) bs ()) (hf : f.rest = bs ++ r) :
    SkipAgrees this bytecode op f :=
  ⟨bs.length, hexec.consumes hf, hskip.consumes hf⟩

/-- Where the handler reads `bs`, the skipper has to. -/
theorem skipAgrees_iff_of_reads {op : Opcode} (hexec : Reads (decodeOperands this op) bs ())
    (hf : f.rest = bs ++ r) :
    SkipAgrees this bytecode op f ↔
      Consumes (skipOperands this.inProject bytecode op) f bs.length := by
  constructor
  · rintro ⟨n, he, hs⟩
    rwa [he.unique (hexec.consumes hf)] at hs
  · intro hs
    exact ⟨_, hexec.consumes hf, hs⟩

theorem consumes_pure {a : Unit} : Consumes (pure a : Reader Unit) f n ↔ n = 0 := by
  unfold Consumes
  constructor
  · rintro ⟨_, h⟩
    exact File.advance_injective ((returns_pure.1 h).2.trans f.advance_zero.symm)
  · rintro rfl
    exact ⟨a, returns_pure.2 ⟨rfl, rfl⟩⟩

/-- A loop over fields consumes some fields exactly when it goes round once for each. -/
theorem consumes_fields_iff (fields : List Field)
    (hf : f.rest = fields.flatMap Field.encode ++ r) :
    Consumes (times k readField) f (fields.flatMap Field.encode).length ↔ k = fields.length := by
  induction fields generalizing f k with
  | nil =>
    constructor
    · intro h
      have := forward_readField.times.le h
      rw [List.flatMap_nil, List.length_nil] at this
      rw [List.length_nil]
      omega
    · rintro rfl
      exact consumes_pure.2 rfl
  | cons field fields ih =>
    have hlen : (List.flatMap Field.encode (field :: fields)).length =
        field.encode.length + (fields.flatMap Field.encode).length := by
      simp
    have hrest : f.rest = field.encode ++ (fields.flatMap Field.encode ++ r) := by
      rw [hf]
      simp
    rw [hlen]
    cases k with
    | zero =>
      rw [times, consumes_pure]
      simp [Field.encode]
    | succ k =>
      rw [times, (reads_field field).consumes_bind_iff hrest, ih (File.rest_advance hrest)]
      simp

/-- A field needs a `STRING` type byte after its type. -/
theorem not_consumes_fields {b c : UInt8} (hf : f.rest = b :: c :: r) (hc : c ≠ typeString) :
    ¬ Consumes (times (k + 1) readField) f n := by
  rintro ⟨_, hrun⟩
  rw [times] at hrun
  obtain ⟨_, u, hfield, -⟩ := returns_bind.1 hrun
  unfold readField at hfield
  rw [(returns_fgetc_cons hf).bind_iff] at hfield
  obtain ⟨_, v, hread, -⟩ := returns_bind.1 hfield
  exact not_returns_readString (File.rest_advance_one hf) hc hread

/-- A field read from the end of a name: its type is a byte of the name. -/
theorem consumes_misread_iff {b : UInt8} (hbs : 0 ∉ bs) (fields : List Field)
    (hf : f.rest = b :: (bs ++ 0 :: (fields.flatMap Field.encode ++ r))) :
    Consumes (times k readField) f (1 + (bs.length + 1 + (fields.flatMap Field.encode).length)) ↔
      k = fields.length + 1 ∧ ∃ cs, bs = typeString :: cs := by
  cases k with
  | zero =>
    rw [times, consumes_pure]
    simp
  | succ k =>
    by_cases hstring : ∃ cs, bs = typeString :: cs
    · obtain ⟨cs, rfl⟩ := hstring
      have hcs : 0 ∉ cs := fun h => hbs (List.mem_cons_of_mem _ h)
      have hfield : Reads readField (b :: (typeString :: cs ++ [0])) () :=
        Reads.byte b (reads_readString hcs).map
      have hsplit : f.rest =
          (b :: (typeString :: cs ++ [0])) ++ (fields.flatMap Field.encode ++ r) := by
        rw [hf]
        simp
      have hlen : 1 + ((typeString :: cs).length + 1 + (fields.flatMap Field.encode).length) =
          (b :: (typeString :: cs ++ [0])).length + (fields.flatMap Field.encode).length := by
        simp
        omega
      rw [times, hlen, hfield.consumes_bind_iff hsplit,
        consumes_fields_iff fields (File.rest_advance hsplit)]
      simp
    · refine iff_of_false ?_ fun h => hstring h.2
      cases bs with
      | nil => exact not_consumes_fields hf (by decide)
      | cons c cs => exact not_consumes_fields hf fun hc => hstring ⟨cs, by rw [hc]⟩

theorem PassesAsNamed.length_eq {fields : List Field} (h : PassesAsNamed fields) :
    fields.length = 6 := by
  match fields, h with
  | field1 :: field2 :: fields, h =>
    have := h.1
    simp only [List.length_cons]
    omega

theorem Field.encode_append (field : Field) (bs : List UInt8) :
    field.encode ++ bs = field.type :: typeString :: (field.name.bytes ++ 0 :: bs) := by
  simp [Field.encode, Name.encode]

theorem Field.length_encode (field : Field) :
    field.encode.length = field.name.bytes.length + 3 := by
  simp [Field.encode, Name.encode]

/-- What the skipper does after the byte that says that a struct is built. -/
def skipNamedFields : Reader Unit := do
  let _ ← readString
  let parameters ← fgetc
  times (counted parameters) readField

/-- The first type is `0` and ends the name: the count is the type byte of the first name. -/
theorem consumes_named_zero {fields : List Field} {field : Field} (hbs : 0 ∉ bs)
    (hfields : fields.length = 4)
    (hf : f.rest = typeString :: 0 :: typeString ::
      (bs ++ 0 :: (field.encode ++ (fields.flatMap Field.encode ++ r)))) :
    Consumes skipNamedFields f
        (2 + (1 + (bs.length + 1 + (field.encode.length + (fields.flatMap Field.encode).length)))) ↔
      ∃ b cs, bs = b :: typeString :: cs := by
  have hempty : Reads readString [typeString, 0] (literal []) := @reads_readString [] (by simp)
  have hnext : (f.advance 2).rest = _ := @File.rest_advance f [typeString, 0] _ hf
  have hlast := File.rest_advance_one hnext
  unfold skipNamedFields
  rw [show 2 = [typeString, 0].length from rfl, hempty.consumes_bind_iff hf]
  rw [show [typeString, 0].length = 2 from rfl, consumes_byte_iff hnext]
  show Consumes (times 6 readField) _ _ ↔ _
  cases bs with
  | nil =>
    refine iff_of_false ?_ (by simp)
    rw [List.nil_append, Field.encode_append] at hlast
    by_cases htype : field.type = typeString
    · -- the type and the name are read as one name, and five fields are one too few
      have hname : 0 ∉ field.type :: typeString :: field.name.bytes := by
        rw [htype]
        simp [typeString, field.name.nulFree]
      have hlen : ([] : List UInt8).length + 1 +
          (field.encode.length + (fields.flatMap Field.encode).length) =
          1 + ((field.type :: typeString :: field.name.bytes).length + 1 +
            (fields.flatMap Field.encode).length) := by
        rw [Field.length_encode]
        simp
      rw [hlen, consumes_misread_iff hname fields hlast]
      omega
    · exact not_consumes_fields hlast htype
  | cons b bs =>
    have hlen : (b :: bs).length + 1 + (field.encode.length + (fields.flatMap Field.encode).length) =
        1 + (bs.length + 1 + ((field :: fields).flatMap Field.encode).length) := by
      simp
      omega
    have hsplit : ((f.advance 2).advance 1).rest =
        b :: (bs ++ 0 :: ((field :: fields).flatMap Field.encode ++ r)) := by
      rw [hlast]
      simp
    rw [hlen, consumes_misread_iff (fun h => hbs (List.mem_cons_of_mem b h)) _ hsplit]
    simp [hfields]

/-- The first type begins the name, which ends with the first field. -/
theorem consumes_named_nonzero {fields : List Field} {cs : List UInt8} {type : UInt8}
    (hbs : 0 ∉ bs) (hcs : 0 ∉ cs)
    (hf : f.rest = (typeString :: bs ++ [0]) ++
      (type :: typeString :: (cs ++ 0 :: (fields.flatMap Field.encode ++ r)))) :
    Consumes skipNamedFields f ((typeString :: bs ++ [0]).length +
        (1 + (1 + (cs.length + 1 + (fields.flatMap Field.encode).length)))) ↔
      type.toNat = fields.length + 1 ∧ ∃ ds, cs = typeString :: ds := by
  have hnext := File.rest_advance hf
  unfold skipNamedFields
  rw [(reads_readString hbs).consumes_bind_iff hf, consumes_byte_iff hnext]
  exact consumes_misread_iff hcs fields (File.rest_advance_one hnext)

theorem consumes_named_iff (fields : Counted Field)
    (hf : f.rest = fields.encode Field.encode ++ r) :
    Consumes skipNamedFields f (fields.encode Field.encode).length ↔
      PassesAsNamed fields.items := by
  have hfew := fields.few
  unfold Counted.encode at hf ⊢
  by_cases hsix : fields.items.length = 6
  swap
  · -- the count is read as the type byte of the name
    have hcount : UInt8.ofNat fields.items.length ≠ typeString := by
      intro h
      have := congrArg UInt8.toNat h
      rw [UInt8.toNat_ofNat_of_lt' hfew] at this
      exact hsix this
    refine iff_of_false ?_ fun h => hsix h.length_eq
    rintro ⟨_, hrun⟩
    obtain ⟨_, u, hread, -⟩ := returns_bind.1 hrun
    exact not_returns_readString hf hcount hread
  have hcount : UInt8.ofNat fields.items.length = typeString := by
    rw [hsix]
    rfl
  rw [hcount] at hf ⊢
  -- the count is the type byte of a string: the skipper reads the first type, and with it the name,
  -- as the bytes of one
  match hitems : fields.items with
  | [] => simp [hitems] at hsix
  | [_] => simp [hitems] at hsix
  | field1 :: field2 :: rest =>
    have hrest : rest.length = 4 := by
      rw [hitems] at hsix
      simpa using hsix
    have hname1 := field1.name.nulFree
    have hname2 := field2.name.nulFree
    have htype2 : field2.type.toNat = 5 ↔ field2.type = 5 := @UInt8.toNat_inj field2.type 5
    rw [hitems] at hf
    unfold PassesAsNamed
    -- a first type of 0 ends that string at once, any other does so at the end of the first name
    by_cases htype : field1.type = 0
    · have hsplit : f.rest = typeString :: 0 :: typeString :: (field1.name.bytes ++ 0 ::
          (field2.encode ++ (rest.flatMap Field.encode ++ r))) := by
        rw [hf]
        simp [Field.encode_append, htype]
      have hlen : (typeString :: (field1 :: field2 :: rest).flatMap Field.encode).length =
          2 + (1 + (field1.name.bytes.length + 1 +
            (field2.encode.length + (rest.flatMap Field.encode).length))) := by
        simp [Field.length_encode]
        omega
      rw [hlen, consumes_named_zero hname1 hrest hsplit]
      simp [hrest, htype]
    · have hname : 0 ∉ field1.type :: typeString :: field1.name.bytes := by
        simp [typeString, hname1, Ne.symm htype]
      have hsplit : f.rest = (typeString :: (field1.type :: typeString :: field1.name.bytes) ++ [0]) ++
          (field2.type :: typeString :: (field2.name.bytes ++ 0 ::
            (rest.flatMap Field.encode ++ r))) := by
        rw [hf]
        simp [Field.encode_append]
      have hlen : (typeString :: (field1 :: field2 :: rest).flatMap Field.encode).length =
          (typeString :: (field1.type :: typeString :: field1.name.bytes) ++ [0]).length +
            (1 + (1 + (field2.name.bytes.length + 1 + (rest.flatMap Field.encode).length))) := by
        simp [Field.length_encode]
        omega
      rw [hlen, consumes_named_nonzero hname hname2 hsplit]
      simp [hrest, htype, htype2]

/-! ### Opcode by opcode -/

theorem reads_interfaces (interfaces : Counted (Counted ChannelField)) {body : Reader Unit}
    (h : ∀ c : ChannelField, Reads body c.encode ()) :
    Reads (fgetc >>= fun interfaces => times (counted interfaces) do
        let channels ← fgetc
        times (counted channels) body)
      (interfaces.encode fun channels => channels.encode ChannelField.encode) () :=
  Reads.counted interfaces fun channels _ => Reads.counted channels fun c _ => h c

/-- Both read a single name. -/
theorem skipAgrees_of_name {op : Opcode} (n : Name) (hf : f.rest = n.encode ++ r)
    (hexec : decodeOperands this op = readString >>= fun _ => pure ())
    (hskip : skipOperands this.inProject bytecode op = readString >>= fun _ => pure ()) :
    SkipAgrees this bytecode op f := by
  refine SkipAgrees.of_reads ?_ ?_ hf
  · rw [hexec]
    exact reads_anyName n
  · rw [hskip]
    exact reads_anyName n

theorem skipAgrees_of_none {op : Opcode} (hexec : decodeOperands this op = pure ())
    (hskip : skipOperands this.inProject bytecode op = pure ()) :
    SkipAgrees this bytecode op f := by
  refine ⟨0, ?_, ?_⟩
  · rw [hexec]
    exact consumes_pure.2 rfl
  · rw [hskip]
    exact consumes_pure.2 rfl

/-- The skipper takes the operand of a jump for a name, and stops at its type byte. -/
theorem not_skipAgrees_of_distance {op : Opcode} (d : Distance) (hf : f.rest = d.encode ++ r)
    (hskip : skipOperands this.inProject bytecode op = readString >>= fun _ => pure ()) :
    ¬ SkipAgrees this bytecode op f := by
  rintro ⟨n, -, _, hrun⟩
  rw [hskip] at hrun
  obtain ⟨_, u, hread, -⟩ := returns_bind.1 hrun
  exact not_returns_readString hf (by decide) hread

theorem component_agrees_iff (n : Name) (interfaces : Counted (Counted ChannelField))
    (hf : f.rest = (Instruction.component n interfaces).operands ++ r) :
    SkipAgrees this bytecode .component f ↔ literal n.bytes = this.name := by
  by_cases hsame : literal n.bytes = this.name
  · refine iff_of_true (SkipAgrees.of_reads ?_ ?_ hf) hsame
    · refine (reads_name n).bind ?_
      rw [if_neg (not_not.2 hsame)]
      exact reads_interfaces interfaces reads_channel
    · exact Reads.name n (reads_interfaces interfaces fun c =>
        Reads.byte c.direction.byte (reads_field c.field))
  · refine iff_of_false ?_ hsame
    rintro ⟨_, ⟨_, hexec⟩, -⟩
    rw [Instruction.operands, List.append_assoc] at hf
    rw [decodeOperands, (reads_name n f _ hf).bind_iff, if_pos hsame] at hexec
    exact returns_fatal hexec

/-- The skipper expects a name for each parameter, but the parameters are on the data stack. -/
theorem call_agrees_iff (n : Name) (parameters : UInt8)
    (hf : f.rest = (n.encode ++ [parameters]) ++ r) :
    SkipAgrees this bytecode .call f ↔ parameters = 0 := by
  have hexec : Reads (decodeOperands this .call) (n.encode ++ [parameters]) () :=
    Reads.name n (reads_anyByte parameters)
  rw [skipAgrees_iff_of_reads hexec hf]
  rw [List.append_assoc] at hf
  rw [List.length_append, skipOperands, (reads_name n).consumes_bind_iff hf]
  show Consumes _ _ (1 + 0) ↔ _
  rw [consumes_byte_iff (File.rest_advance hf)]
  constructor
  · intro h
    have hname := forward_readString.bind fun _ => @Forward.pure Fault Unit ()
    have hle : parameters.toNat * (2 + 0) ≤ 0 := hname.times.le h
    have hzero : parameters.toNat = 0 := by omega
    exact UInt8.toNat_inj.1 hzero
  · rintro rfl
    exact consumes_pure.2 rfl

/-- A component that is running leaves the operands to the skipper. -/
theorem constructor_agrees_iff (fields : Counted Field)
    (hf : f.rest = fields.encode Field.encode ++ r) :
    SkipAgrees this bytecode .constructor f ↔ this.running = false := by
  have hskip : Reads (skipOperands this.inProject bytecode .constructor)
      (fields.encode Field.encode) () := reads_fields fields
  by_cases hrun : this.running = true
  · refine iff_of_false ?_ (by simp [hrun])
    rintro ⟨n, hexec, hs⟩
    rw [decodeOperands, if_pos hrun, consumes_pure] at hexec
    have hlen := hs.unique (hskip.consumes hf)
    rw [Counted.encode, List.length_cons] at hlen
    omega
  · refine iff_of_true (SkipAgrees.of_reads ?_ hskip hf) (by simpa using hrun)
    rw [decodeOperands, if_neg hrun]
    exact reads_fields fields

theorem struct_agrees_iff (fields : Counted Field)
    (hf : f.rest = (structConstructor :: fields.encode Field.encode) ++ r) :
    SkipAgrees this bytecode .struct f ↔ PassesAsNamed fields.items := by
  have hexec : Reads (decodeOperands this .struct)
      (structConstructor :: fields.encode Field.encode) () :=
    Reads.byte _ (reads_fields fields)
  rw [skipAgrees_iff_of_reads hexec hf, List.length_cons, Nat.add_comm, skipOperands,
    consumes_byte_iff hf]
  exact consumes_named_iff fields (File.rest_advance_one hf)

/-- Inside a project the handler consumes a byte, which the skipper leaves to the next round
unless it is looking for the end of the project. -/
theorem blockEnd_agrees_iff (hf : f.rest = r) :
    SkipAgrees this bytecode .blockEnd f ↔
      (this.inProject = true → r = [] ∨
        (bytecode = Opcode.projectExit.byte ∧ r.head? ≠ some Opcode.projectExit.byte)) := by
  unfold SkipAgrees
  rw [decodeOperands, skipOperands]
  by_cases hproject : this.inProject = true
  swap
  · rw [if_neg hproject, if_neg fun h => hproject h.1]
    exact iff_of_true ⟨0, consumes_pure.2 rfl, consumes_pure.2 rfl⟩ fun h => absurd h hproject
  rw [if_pos hproject]
  cases r with
  | nil =>
    -- at the end of the file there is no byte to take
    refine iff_of_true ⟨0, ⟨(), ?_⟩, ⟨(), ?_⟩⟩ fun _ => .inl rfl
    · exact (returns_fgetc_nil hf).bind (returns_pure.2 ⟨rfl, rfl⟩)
    · split_ifs
      · refine (returns_fgetc_nil hf).bind ?_
        rw [if_neg (by simp)]
        exact returns_pure.2 ⟨rfl, rfl⟩
      · exact returns_pure.2 ⟨rfl, rfl⟩
  | cons b r =>
    have hexec : Consumes (fgetc >>= fun _ => (pure () : Reader Unit)) f 1 :=
      (reads_anyByte b).consumes hf
    by_cases hexit : bytecode = Opcode.projectExit.byte ∧ b ≠ Opcode.projectExit.byte
    · refine iff_of_true ⟨1, hexec, ⟨(), ?_⟩⟩ fun _ => .inr ⟨hexit.1, by simpa using hexit.2⟩
      rw [if_pos ⟨hproject, hexit.1⟩]
      refine (returns_fgetc_cons hf).bind ?_
      rw [if_neg (by simpa using hexit.2)]
      exact returns_pure.2 ⟨rfl, rfl⟩
    -- the handler takes the byte and the skipper leaves it
    · refine iff_of_false ?_ ?_
      · rintro ⟨n, he, hs⟩
        obtain rfl := hexec.unique he
        by_cases htarget : bytecode = Opcode.projectExit.byte
        · have hb : b = Opcode.projectExit.byte := by
            by_contra hb
            exact hexit ⟨htarget, hb⟩
          obtain ⟨_, hs⟩ := hs
          rw [if_pos ⟨hproject, htarget⟩, (returns_fgetc_cons hf).bind_iff, if_pos (by rw [hb])]
            at hs
          have := File.advance_injective ((hs.unique returns_seekCur_back).2.trans
            f.advance_zero.symm)
          omega
        · rw [if_neg fun h => htarget h.2, consumes_pure] at hs
          omega
      · intro h
        rcases h hproject with hnil | hne
        · cases hnil
        · exact hexit ⟨hne.1, by simpa using hne.2⟩

/-- **On one instruction the decoders agree in the cases listed, and in no others.** -/
theorem skipAgrees_iff (i : Instruction) (hf : f.rest = i.operands ++ r) :
    SkipAgrees this bytecode i.opcode f ↔ Agreeing this bytecode r i := by
  cases i with
  | stop n => exact iff_of_true (skipAgrees_of_name n hf rfl rfl) trivial
  | load n => exact iff_of_true (skipAgrees_of_name n hf rfl rfl) trivial
  | store n => exact iff_of_true (skipAgrees_of_name n hf rfl rfl) trivial
  | send n => exact iff_of_true (skipAgrees_of_name n hf rfl rfl) trivial
  | receive n => exact iff_of_true (skipAgrees_of_name n hf rfl rfl) trivial
  | procCall n => exact iff_of_true (skipAgrees_of_name n hf rfl rfl) trivial
  | enterScope => exact iff_of_true (skipAgrees_of_none rfl rfl) trivial
  | exitScope => exact iff_of_true (skipAgrees_of_none rfl rfl) trivial
  | expression op => exact iff_of_true (skipAgrees_of_none rfl rfl) trivial
  | not => exact iff_of_true (skipAgrees_of_none rfl rfl) trivial
  | procReturn => exact iff_of_true (skipAgrees_of_none rfl rfl) trivial
  | any => exact iff_of_true (skipAgrees_of_none rfl rfl) trivial
  | projectExit => exact iff_of_true (skipAgrees_of_none rfl rfl) trivial
  | push value =>
    refine iff_of_true (SkipAgrees.of_reads ?_ ?_ hf) trivial
    · intro f r hf
      exact (reads_literal value f r hf).bind (returns_pure.2 ⟨rfl, rfl⟩)
    · exact (reads_literal value).map
  | declare n type =>
    refine iff_of_true (SkipAgrees.of_reads ?_ ?_ hf) trivial
    · exact Reads.name n (reads_anyByte type)
    · exact Reads.name n (reads_readNBytes [type]).map
  | connect n1 n2 n3 n4 =>
    have hread := Reads.name n1 (Reads.name n2 (Reads.name n3 (reads_anyName n4)))
    exact iff_of_true (SkipAgrees.of_reads hread hread hf) trivial
  | disconnect n1 n2 =>
    have hread := Reads.name n1 (reads_anyName n2)
    exact iff_of_true (SkipAgrees.of_reads hread hread hf) trivial
  | proc n fields =>
    have hread := Reads.name n (reads_fields fields)
    exact iff_of_true (SkipAgrees.of_reads hread hread hf) trivial
  | structLoad n =>
    have hexec : Reads (decodeOperands this .struct) (structLoad :: n.encode) () :=
      Reads.byte _ (reads_anyName n)
    exact iff_of_true (SkipAgrees.of_reads hexec (Reads.byte _ (reads_anyName n)) hf) trivial
  -- the counts and the field types that the skipper reads in its own way
  | component n interfaces => exact component_agrees_iff n interfaces hf
  | call n parameters => exact call_agrees_iff n parameters hf
  | constructor fields => exact constructor_agrees_iff fields hf
  | structConstructor fields => exact struct_agrees_iff fields hf
  | blockEnd => exact blockEnd_agrees_iff hf
  -- the skipper takes no operands where the handler takes a distance
  | jump d => exact iff_of_false (not_skipAgrees_of_distance d hf rfl) id
  | ifClause d => exact iff_of_false (not_skipAgrees_of_distance d hf rfl) id
  | elseClause d => exact iff_of_false (not_skipAgrees_of_distance d hf rfl) id
  | behaviourJump d =>
    refine iff_of_false ?_ id
    rintro ⟨n, hexec, hskip⟩
    have hzero : n = 0 := consumes_pure.1 hskip
    have hread : Reads (decodeOperands this .behaviourJump) d.encode () := by
      rw [decodeOperands]
      split_ifs
      · exact (reads_literal (.fixed typeInteger d.bytes rfl d.size)).map
      · exact (reads_distance d jumpMessage).map
    have hlen := hexec.unique (hread.consumes hf)
    rw [Distance.encode, List.length_cons] at hlen
    omega
  | projectEntry n =>
    refine iff_of_false ?_ id
    rintro ⟨k, hexec, hskip⟩
    have hzero : k = 0 := consumes_pure.1 hskip
    have hle := (forward_readString.bind fun _ => forward_fgetc.bind fun _ => Forward.pure).le hexec
    omega

/-! ### A run of instructions -/

/-- Decoding from `f` on, the handlers come to opcode number `k` at `g`. -/
inductive Decodes (this : Reading) (f : File) : ℕ → File → Prop
  | start : Decodes this f 0 f
  | next {k : ℕ} {g h : File} {op : Opcode} {r : List UInt8} (before : Decodes this f k g)
      (read : g.rest = op.byte :: r) (decoded : Returns (decodeOperands this op) (g.advance 1) () h) :
      Decodes this f (k + 1) h

/-- Instruction number `k`, as the handlers decode the file, is `i`, with `r` after it. -/
def InstructionAt (this : Reading) (f : File) (k : ℕ) (i : Instruction) (r : List UInt8) : Prop :=
  ∃ g, Decodes this f k g ∧ g.rest = i.encode ++ r

/-- The skipper consumes as many bytes as the handlers for each of the first `n` instructions, and
so looks for its opcodes where the instructions begin. -/
def SkipsAligned (this : Reading) (bytecode : UInt8) (f : File) (n : ℕ) : Prop :=
  (∀ k < n, ∀ (i : Instruction) r g, Decodes this f k g → g.rest = i.encode ++ r →
    SkipAgrees this bytecode i.opcode (g.advance 1)) ∧
  ∀ k ≤ n, ∃ g, Decodes this f k g ∧ Dispatches this.inProject bytecode f k g

theorem Decodes.unique {u : File} (hg : Decodes this f k g) (hu : Decodes this f k u) : g = u := by
  induction hg generalizing u with
  | start =>
    cases hu
    rfl
  | next _ read decoded ih =>
    cases hu with
    | next before' read' decoded' =>
      obtain rfl := ih before'
      obtain ⟨hbyte, rfl⟩ := List.cons.inj (read.symm.trans read')
      obtain rfl := Opcode.byte_injective hbyte
      exact (decoded.unique decoded').2

theorem skipInstruction_opcode {inProject : Bool} (op : Opcode) :
    skipInstruction inProject bytecode op.byte = skipOperands inProject bytecode op := by
  unfold skipInstruction
  rw [Opcode.ofByte_byte]

/-- One more instruction on which the decoders agree. -/
theorem dispatches_of_agrees {i : Instruction}
    (hg : Dispatches this.inProject bytecode f k g) (hdec : Decodes this f k g)
    (hrest : g.rest = i.encode ++ r) (hother : i.opcode.byte ≠ bytecode)
    (hagree : SkipAgrees this bytecode i.opcode (g.advance 1)) :
    ∃ h, Decodes this f (k + 1) h ∧ Dispatches this.inProject bytecode f (k + 1) h := by
  obtain ⟨n, ⟨_, hexec⟩, ⟨_, hskip⟩⟩ := hagree
  refine ⟨_, .next hdec hrest hexec, .next hg hrest hother ?_⟩
  rw [skipInstruction_opcode]
  exact hskip

/-- **The skipper stays in step with the handlers exactly when it meets none of the instructions
that it decodes differently.** -/
theorem skipsAligned_iff
    (hcode : ∀ k < n, ∃ i r, InstructionAt this f k i r ∧ i.opcode.byte ≠ bytecode) :
    SkipsAligned this bytecode f n ↔
      ∀ k < n, ∀ i r, InstructionAt this f k i r → Agreeing this bytecode r i := by
  have hone (i : Instruction) (r : List UInt8) (g : File) (hrest : g.rest = i.encode ++ r) :
      SkipAgrees this bytecode i.opcode (g.advance 1) ↔ Agreeing this bytecode r i :=
    skipAgrees_iff i (File.rest_advance_one hrest)
  constructor
  · rintro ⟨hagree, -⟩ k hk i r ⟨g, hg, hrest⟩
    exact (hone i r g hrest).1 (hagree k hk i r g hg hrest)
  · intro h
    refine ⟨fun k hk i r g hg hrest => (hone i r g hrest).2 (h k hk i r ⟨g, hg, hrest⟩), ?_⟩
    intro k hk
    induction k with
    | zero => exact ⟨f, .start, .start⟩
    | succ k ih =>
      obtain ⟨g, hdec, hdis⟩ := ih (by omega)
      obtain ⟨i, r, ⟨_, hdec', hrest⟩, hother⟩ := hcode k (by omega)
      obtain rfl := hdec.unique hdec'
      have hagree := (hone i r g hrest).2 (h k (by omega) i r ⟨g, hdec, hrest⟩)
      exact dispatches_of_agrees hdis hdec hrest hother hagree

theorem skipsAligned_iff_load :
    SkipsAligned ⟨[77], false, false, false⟩ Opcode.blockEnd.byte ⟨[5, 6, 120, 0, 18], 0⟩ 2 ↔
      ∀ k < 2, ∀ i r, InstructionAt ⟨[77], false, false, false⟩ ⟨[5, 6, 120, 0, 18], 0⟩ k i r →
        Agreeing ⟨[77], false, false, false⟩ Opcode.blockEnd.byte r i := by
  refine skipsAligned_iff fun k hk => ?_
  obtain rfl | rfl : k = 0 ∨ k = 1 := by omega
  · exact ⟨.load ⟨[120], by decide⟩, [18], ⟨_, .start, rfl⟩, by decide⟩
  · have hload : Decodes ⟨[77], false, false, false⟩ ⟨[5, 6, 120, 0, 18], 0⟩ 1
        ⟨[5, 6, 120, 0, 18], 4⟩ :=
      .next .start (show _ = Opcode.load.byte :: _ from rfl) rfl
    exact ⟨.expression .and, [], ⟨_, hload, rfl⟩, by decide⟩

/-- The skipper does not get past an `IF`. -/
theorem ifClause_not_skipped :
    ¬ SkipAgrees ⟨[77], false, false, false⟩ Opcode.blockEnd.byte .ifClause ⟨[1, 0, 0, 0, 4, 39], 0⟩ := by
  have hrest : (⟨[1, 0, 0, 0, 4, 39], 0⟩ : File).rest =
      (Distance.mk [0, 0, 0, 4] rfl).encode ++ [39] := rfl
  exact not_skipAgrees_of_distance _ hrest rfl

/-- In step with the handlers, the skipper finds the byte it searches for. -/
theorem SkipsAligned.skipToNext (h : SkipsAligned this bytecode f n) (hg : Decodes this f n g)
    (hrest : g.rest = bytecode :: r) :
    Returns (skipToNext this.inProject bytecode) f (some bytecode) (g.advance 1) := by
  obtain ⟨u, hu, hdis⟩ := h.2 n (Nat.le_refl n)
  obtain rfl := hg.unique hu
  exact hdis.skipToNext hrest

end InsenseCVM
