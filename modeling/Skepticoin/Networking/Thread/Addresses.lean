import Skepticoin.Networking.Thread

namespace Skepticoin

open Guard FMap

variable {host : String} {ipv4 : Bytes}

-- A host in the dotted form.
def Dotted (host : String) : Prop := ∃ ipv4, parse_ipv4 host = some ipv4

theorem octet_digits : ∀ n : Fin 256,
    parse_octet (toString n.val).toList = some (UInt8.ofNat n.val) ∧ '.' ∉ (toString n.val).toList := by
  decide +kernel

theorem parse_octet_byte (byte : UInt8) : parse_octet (toString byte.toNat).toList = some byte := by
  have hdigits := (octet_digits ⟨byte.toNat, byte.toNat_lt⟩).1
  rw [hdigits, UInt8.ofNat_toNat]

theorem no_dot (byte : UInt8) : '.' ∉ (toString byte.toNat).toList := (octet_digits ⟨byte.toNat, byte.toNat_lt⟩).2

-- Whatever is written in the dotted form is read back.
theorem parse_ipv4_exploded (h : ipv4.length = 4) : parse_ipv4 (exploded ipv4) = some ipv4 := by
  have hoctets : (exploded ipv4).toList.splitOn '.' = ipv4.map fun byte => (toString byte.toNat).toList := by
    have hlist : (exploded ipv4).toList = ['.'].intercalate (ipv4.map fun byte => (toString byte.toNat).toList) := by
      rw [exploded, String.toList_intercalate, List.map_map]
      rfl
    rw [hlist]
    refine List.splitOn_intercalate '.' (fun octet hoctet => ?_) ?_
    · obtain ⟨byte, _, rfl⟩ := List.mem_map.mp hoctet
      exact no_dot byte
    · intro hnil
      rw [List.map_eq_nil_iff] at hnil
      rw [hnil] at h
      cases h
  have hall : ∀ bytes : Bytes, (bytes.map fun byte => (toString byte.toNat).toList).mapM parse_octet = some bytes := by
    intro bytes
    induction bytes with
    | nil => rfl
    | cons byte bytes ih =>
        rw [List.map_cons, List.mapM_cons, parse_octet_byte, ih]
        rfl
  rw [parse_ipv4, hoctets]
  simp only [List.length_map, h, if_true]
  exact hall ipv4

theorem parse_ipv4_length (h : parse_ipv4 host = some ipv4) : ipv4.length = 4 := by
  have hlength : ∀ (octets : List (List Char)) (bytes : Bytes), octets.mapM parse_octet = some bytes →
      bytes.length = octets.length := by
    intro octets
    induction octets with
    | nil =>
        intro bytes hbytes
        cases hbytes
        rfl
    | cons octet octets ih =>
        intro bytes hbytes
        rw [List.mapM_cons] at hbytes
        obtain ⟨byte, _, hrest⟩ := Option.bind_eq_some_iff.mp hbytes
        obtain ⟨rest, hrest, hpure⟩ := Option.bind_eq_some_iff.mp hrest
        rw [← Option.some.inj hpure, List.length_cons, ih rest hrest, List.length_cons]
  simp only [parse_ipv4] at h
  obtain ⟨hfour, hoctets⟩ := Option.ite_none_right_eq_some.mp h
  rw [hlength _ _ hoctets, hfour]

-- The mapped form of a host, and back.
theorem ipv4_mapped_address_eq_ok (h : parse_ipv4 host = some ipv4) :
    ∃ address, ipv4_mapped_address host = .ok address ∧ address.ipv4_mapped = some ipv4 := by
  have hpacked : (List.replicate 10 0x00 ++ [0xff, 0xff] ++ ipv4 : Bytes).length = 16 := by
    rw [List.length_append, parse_ipv4_length h]
    rfl
  refine ⟨⟨_, hpacked⟩, ?_, ?_⟩
  · simp only [ipv4_mapped_address, h]
    rw [dif_pos hpacked]
  · have hprefix : (List.replicate 10 0x00 ++ [0xff, 0xff] ++ ipv4 : Bytes).take 12 =
        List.replicate 10 0x00 ++ [0xff, 0xff] := List.take_left' rfl
    have hrest : (List.replicate 10 0x00 ++ [0xff, 0xff] ++ ipv4 : Bytes).drop 12 = ipv4 := List.drop_left' rfl
    exact (if_pos hprefix).trans (congrArg some hrest)

theorem dotted_exploded {address : IPv6Address} (h : address.ipv4_mapped = some ipv4) : Dotted (exploded ipv4) := by
  obtain ⟨_, hipv4⟩ := Option.ite_none_right_eq_some.mp h
  refine ⟨ipv4, parse_ipv4_exploded ?_⟩
  rw [← Option.some.inj hipv4, List.length_drop, address.2]

end Skepticoin
