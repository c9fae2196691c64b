/-
# The tables of bases and digits

For every base `mp_bases` gives the number of digits that always fit a limb, the
power of the base with that many digits and the inverse of this power
(`mpn/generic/mp_bases.c`, the rows for 64-bit limbs).  For a power of two
`big_base` is the number of bits of a digit instead.  `digit_value_tab`
(`mp_dv_tab.c`) gives the value of a character as a digit; from its offset 224 on it
tells upper and lower case apart.

The rows are checked as a whole: each is what `gmp-impl.h` says of it
(`mpBases_fits`, `mpBases_fitsPow2`), and the constants for base ten are the row of
base ten.
-/

import SecureDesign.Mpir.Longlong

namespace SecureDesign
namespace Mpir

open CLang

/-- A row of `mp_bases`, without the floating-point `chars_per_bit_exactly`. -/
structure Bases where
  charsPerLimb : ℕ
  bigBase : UInt64
  bigBaseInverted : UInt64

/-- The rows of `mp_bases`. -/
def mpBasesTable : List Bases :=
  [⟨0, 0, 0⟩, ⟨0, 0, 0⟩, ⟨64, 0x1, 0⟩, ⟨40, 0xa8b8b452291fe821, 0x846d550e37b5063d⟩, ⟨32, 0x2, 0⟩,
   ⟨27, 0x6765c793fa10079d, 0x3ce9a36f23c0fc90⟩, ⟨24, 0x41c21cb8e1000000, 0xf24f62335024a295⟩,
   ⟨22, 0x3642798750226111, 0x2df495ccaa57147b⟩, ⟨21, 0x3, 0⟩,
   ⟨20, 0xa8b8b452291fe821, 0x846d550e37b5063d⟩, ⟨19, 0x8ac7230489e80000, 0xd83c94fb6d2ac34a⟩,
   ⟨18, 0x4d28cb56c33fa539, 0xa8adf7ae45e7577b⟩, ⟨17, 0x1eca170c00000000, 0xa10c2bec5da8f8f⟩,
   ⟨17, 0x780c7372621bd74d, 0x10f4becafe412ec3⟩, ⟨16, 0x1e39a5057d810000, 0xf08480f672b4e86⟩,
   ⟨16, 0x5b27ac993df97701, 0x6779c7f90dc42f48⟩, ⟨16, 0x4, 0⟩,
   ⟨15, 0x27b95e997e21d9f1, 0x9c71e11bab279323⟩, ⟨15, 0x5da0e1e53c5c8000, 0x5dfaa697ec6f6a1c⟩,
   ⟨15, 0xd2ae3299c1c4aedb, 0x3711783f6be7e9ec⟩, ⟨14, 0x16bcc41e90000000, 0x6849b86a12b9b01e⟩,
   ⟨14, 0x2d04b7fdd9c0ef49, 0x6bf097ba5ca5e239⟩, ⟨14, 0x5658597bcaa24000, 0x7b8015c8d7af8f08⟩,
   ⟨14, 0xa0e2073737609371, 0x975a24b3a3151b38⟩, ⟨13, 0xc29e98000000000, 0x50bd367972689db1⟩,
   ⟨13, 0x14adf4b7320334b9, 0x8c240c4aecb13bb5⟩, ⟨13, 0x226ed36478bfa000, 0xdbd2e56854e118c9⟩,
   ⟨13, 0x383d9170b85ff80b, 0x2351ffcaa9c7c4ae⟩, ⟨13, 0x5a3c23e39c000000, 0x6b24188ca33b0636⟩,
   ⟨13, 0x8e65137388122bcd, 0xcc3dceaf2b8ba99d⟩, ⟨13, 0xdd41bb36d259e000, 0x2832e835c6c7d6b6⟩,
   ⟨12, 0xaee5720ee830681, 0x76b6aa272e1873c5⟩, ⟨12, 0x5, 0⟩,
   ⟨12, 0x172588ad4f5f0981, 0x61eaf5d402c7bf4f⟩, ⟨12, 0x211e44f7d02c1000, 0xeeb658123ffb27ec⟩,
   ⟨12, 0x2ee56725f06e5c71, 0x5d5e3762e6fdf509⟩, ⟨12, 0x41c21cb8e1000000, 0xf24f62335024a295⟩,
   ⟨12, 0x5b5b57f8a98a5dd1, 0x66ae7831762efb6f⟩, ⟨12, 0x7dcff8986ea31000, 0x47388865a00f544⟩,
   ⟨12, 0xabd4211662a6b2a1, 0x7d673c33a123b54c⟩, ⟨12, 0xe8d4a51000000000, 0x19799812dea11197⟩,
   ⟨11, 0x7a32956ad081b79, 0xc27e62e0686feae⟩, ⟨11, 0x9f49aaff0e86800, 0x9b6e7507064ce7c7⟩,
   ⟨11, 0xce583bb812d37b3, 0x3d9ac2bf66cfed94⟩, ⟨11, 0x109b79a654c00000, 0xed46bc50ce59712a⟩,
   ⟨11, 0x1543beff214c8b95, 0x813d97e2c89b8d46⟩, ⟨11, 0x1b149a79459a3800, 0x2e81751956af8083⟩,
   ⟨11, 0x224edfb5434a830f, 0xdd8e0a95e30c0988⟩, ⟨11, 0x2b3fb00000000000, 0x7ad4dd48a0b5b167⟩,
   ⟨11, 0x3642798750226111, 0x2df495ccaa57147b⟩, ⟨11, 0x43c33c1937564800, 0xe392010175ee5962⟩,
   ⟨11, 0x54411b2441c3cd8b, 0x84eaf11b2fe7738e⟩, ⟨11, 0x6851455acd400000, 0x3a1e3971e008995d⟩,
   ⟨11, 0x80a23b117c8feb6d, 0xfd7a462344ffce25⟩, ⟨11, 0x9dff7d32d5dc1800, 0x9eca40b40ebcef8a⟩,
   ⟨11, 0xc155af6faeffe6a7, 0x52fa161a4a48e43d⟩, ⟨11, 0xebb7392e00000000, 0x1607a2cbacf930c1⟩,
   ⟨10, 0x50633659656d971, 0x97a014f8e3be55f1⟩, ⟨10, 0x5fa8624c7fba400, 0x568df8b76cbf212c⟩,
   ⟨10, 0x717d9faa73c5679, 0x20ba7c4b4e6ef492⟩, ⟨10, 0x86430aac6100000, 0xe81ee46b9ef492f5⟩,
   ⟨10, 0x9e64d9944b57f29, 0x9dc0d10d51940416⟩, ⟨10, 0xba5ca5392cb0400, 0x5fa8ed2f450272a5⟩,
   ⟨10, 0xdab2ce1d022cd81, 0x2ba9eb8c5e04e641⟩, ⟨10, 0x6, 0⟩,
   ⟨10, 0x12aeed5fd3e2d281, 0xb67759cc00287bf1⟩, ⟨10, 0x15c3da1572d50400, 0x78621feeb7f4ed33⟩,
   ⟨10, 0x194c05534f75ee29, 0x43d55b5f72943bc0⟩, ⟨10, 0x1d56299ada100000, 0x173decb64d1d4409⟩,
   ⟨10, 0x21f2a089a4ff4f79, 0xe29fb54fd6b6074f⟩, ⟨10, 0x2733896c68d9a400, 0xa1f1f5c210d54e62⟩,
   ⟨10, 0x2d2cf2c33b533c71, 0x6aac7f9bfafd57b2⟩, ⟨10, 0x33f506e440000000, 0x3b563c2478b72ee2⟩,
   ⟨10, 0x3ba43bec1d062211, 0x12b536b574e92d1b⟩, ⟨10, 0x4455872d8fd4e400, 0xdf86c03020404fa5⟩,
   ⟨10, 0x4e2694539f2f6c59, 0xa34adf02234eea8e⟩, ⟨10, 0x5938006c18900000, 0x6f46eb8574eb59dd⟩,
   ⟨10, 0x65ad9912474aa649, 0x42459b481df47cec⟩, ⟨10, 0x73ae9ff4241ec400, 0x1b424b95d80ca505⟩,
   ⟨10, 0x836612ee9c4ce1e1, 0xf2c1b982203a0dac⟩, ⟨10, 0x9502f90000000000, 0xb7cdfd9d7bdbab7d⟩,
   ⟨10, 0xa8b8b452291fe821, 0x846d550e37b5063d⟩, ⟨10, 0xbebf59a07dab4400, 0x57931eeaf85cf64f⟩,
   ⟨10, 0xd7540d4093bc3109, 0x305a944507c82f47⟩, ⟨10, 0xf2b96616f1900000, 0xe007ccc9c22781a⟩,
   ⟨9, 0x336de62af2bca35, 0x3e92c42e000eeed4⟩, ⟨9, 0x39235ec33d49600, 0x1ebe59130db2795e⟩,
   ⟨9, 0x3f674e539585a17, 0x268859e90f51b89⟩, ⟨9, 0x4645b6958000000, 0xd24cde0463108cfa⟩,
   ⟨9, 0x4dcb74afbc49c19, 0xa536009f37adc383⟩, ⟨9, 0x56064e1d18d9a00, 0x7cea06ce1c9ace10⟩,
   ⟨9, 0x5f04fe2cd8a39fb, 0x58db032e72e8ba43⟩, ⟨9, 0x68d74421f5c0000, 0x388cc17cae105447⟩,
   ⟨9, 0x738df1f6ab4827d, 0x1b92672857620ce0⟩, ⟨9, 0x7f3afbc9cfb5e00, 0x18c6a9575c2ade4⟩,
   ⟨9, 0x8bf187fba88f35f, 0xd44da7da8e44b24f⟩, ⟨9, 0x99c600000000000, 0xaa2f78f1b4cc6794⟩,
   ⟨9, 0xa8ce21eb6531361, 0x843c067d091ee4cc⟩, ⟨9, 0xb92112c1a0b6200, 0x62005e1e913356e3⟩,
   ⟨9, 0xcad7718b8747c43, 0x4316eed01dedd518⟩, ⟨9, 0xde0b6b3a7640000, 0x2725dd1d243aba0e⟩,
   ⟨9, 0xf2d8cf5fe6d74c5, 0xddd9057c24cb54f⟩, ⟨9, 0x1095d25bfa712600, 0xedeee175a736d2a1⟩,
   ⟨9, 0x121b7c4c3698faa7, 0xc4699f3df8b6b328⟩, ⟨9, 0x13c09e8d68000000, 0x9ebbe7d859cb5a7c⟩,
   ⟨9, 0x15876ccb0b709ca9, 0x7c828b9887eb2179⟩, ⟨9, 0x17723c2976da2a00, 0x5d652ab99001adcf⟩,
   ⟨9, 0x198384e9c259048b, 0x4114f1754e5d7b32⟩, ⟨9, 0x1bbde41dfeec0000, 0x274b7c902f7e0188⟩,
   ⟨9, 0x1e241d6e3337910d, 0xfc9e0fbb32e210c⟩, ⟨9, 0x20b91cee9901ee00, 0xf4afa3e594f8ea1f⟩,
   ⟨9, 0x237ff9079863dfef, 0xcd85c32e9e4437b0⟩, ⟨9, 0x267bf47000000000, 0xa9bbb147e0dd92a8⟩,
   ⟨9, 0x29b08039fbeda7f1, 0x8900447b70e8eb82⟩, ⟨9, 0x2d213df34f65f200, 0x6b0a92adaad5848a⟩,
   ⟨9, 0x30d201d957a7c2d3, 0x4f990ad8740f0ee5⟩, ⟨9, 0x34c6d52160f40000, 0x3670a9663a8d3610⟩,
   ⟨9, 0x3903f855d8f4c755, 0x1f5c44188057be3c⟩, ⟨9, 0x3d8de5c8ec59b600, 0xa2bea956c4e4977⟩,
   ⟨9, 0x4269541d1ff01337, 0xed68b23033c3637e⟩, ⟨9, 0x479b38e478000000, 0xc99cf624e50549c5⟩,
   ⟨9, 0x4d28cb56c33fa539, 0xa8adf7ae45e7577b⟩, ⟨9, 0x5317871fa13aba00, 0x8a5bc740b1c113e5⟩,
   ⟨9, 0x596d2f44de9fa71b, 0x6e6c7efb81cfbb9b⟩, ⟨9, 0x602fd125c47c0000, 0x54aba5c5cada5f10⟩,
   ⟨9, 0x6765c793fa10079d, 0x3ce9a36f23c0fc90⟩, ⟨9, 0x6f15be069b847e00, 0x26fb43de2c8cd2a8⟩,
   ⟨9, 0x7746b3e82a77047f, 0x12b94793db8486a1⟩, ⟨9, 0x7, 0⟩,
   ⟨9, 0x894953f7ea890481, 0xdd5deca404c0156d⟩, ⟨9, 0x932abffea4848200, 0xbd51373330291de0⟩,
   ⟨9, 0x9dacb687d3d6a163, 0x9fa4025d66f23085⟩, ⟨9, 0xa8d8102a44840000, 0x842530ee2db4949d⟩,
   ⟨9, 0xb4b60f9d140541e5, 0x6aa7f2766b03dc25⟩, ⟨9, 0xc15065d4856e4600, 0x53035ba7ebf32e8d⟩,
   ⟨9, 0xceb1363f396d23c7, 0x3d12091fc9fb4914⟩, ⟨9, 0xdce31b2488000000, 0x28b1cb81b1ef1849⟩,
   ⟨9, 0xebf12a24bca135c9, 0x15c35be67ae3e2c9⟩, ⟨9, 0xfbe6f8dbf88f4a00, 0x42a17bd09be1ff0⟩,
   ⟨8, 0x1ef156c084ce761, 0x8bf461f03cf0bbf⟩, ⟨8, 0x20c4e3b94a10000, 0xf3fbb43f68a32d05⟩,
   ⟨8, 0x22b0695a08ba421, 0xd84f44c48564dc19⟩, ⟨8, 0x24b4f35d7a4c100, 0xbe58ebcce7956abe⟩,
   ⟨8, 0x26d397284975781, 0xa5fac463c7c134b7⟩, ⟨8, 0x290d74100000000, 0x8f19241e28c7d757⟩,
   ⟨8, 0x2b63b3a37866081, 0x799a6d046c0ae1ae⟩, ⟨8, 0x2dd789f4d894100, 0x6566e37d746a9e40⟩,
   ⟨8, 0x306a35e51b58721, 0x526887dbfb5f788f⟩, ⟨8, 0x331d01712e10000, 0x408af3382b8efd3d⟩,
   ⟨8, 0x35f14200a827c61, 0x2fbb374806ec05f1⟩, ⟨8, 0x38e858b62216100, 0x1fe7c0f0afce87fe⟩,
   ⟨8, 0x3c03b2c13176a41, 0x11003d517540d32e⟩, ⟨8, 0x3f44c9b21000000, 0x2f5810f98eff0dc⟩,
   ⟨8, 0x42ad23cef3113c1, 0xeb72e35e7840d910⟩, ⟨8, 0x463e546b19a2100, 0xd27de19593dc3614⟩,
   ⟨8, 0x49f9fc3f96684e1, 0xbaf391fd3e5e6fc2⟩, ⟨8, 0x4de1c9c5dc10000, 0xa4bd38c55228c81d⟩,
   ⟨8, 0x51f77994116d2a1, 0x8fc5a8de8e1de782⟩, ⟨8, 0x563cd6bb3398100, 0x7bf9265bea9d3a3b⟩,
   ⟨8, 0x5ab3bb270beeb01, 0x69454b325983dccd⟩, ⟨8, 0x5f5e10000000000, 0x5798ee2308c39df9⟩,
   ⟨8, 0x643dce0ec16f501, 0x46e40ba0fa66a753⟩, ⟨8, 0x6954fe21e3e8100, 0x3717b0870b0db3a7⟩,
   ⟨8, 0x6ea5b9755f440a1, 0x2825e6775d11cdeb⟩, ⟨8, 0x74322a1c0410000, 0x1a01a1c09d1b4dac⟩,
   ⟨8, 0x79fc8b6ae8a46e1, 0xc9eb0a8bebc8f3e⟩, ⟨8, 0x80072a66d512100, 0xffe357ff59e6a004⟩,
   ⟨8, 0x86546633b42b9c1, 0xe7dfd1be05fa61a8⟩, ⟨8, 0x8ce6b0861000000, 0xd11ed6fc78f760e5⟩,
   ⟨8, 0x93c08e16a022441, 0xbb8db609dd29ebfe⟩, ⟨8, 0x9ae49717f026100, 0xa71aec8d1813d532⟩,
   ⟨8, 0xa25577ae24c1a61, 0x93b612a9f20fbc02⟩, ⟨8, 0xaa15f068e610000, 0x814fc7b19a67d317⟩,
   ⟨8, 0xb228d6bf7577921, 0x6fd9a03f2e0a4b7c⟩, ⟨8, 0xba91158ef5c4100, 0x5f4615a38d0d316e⟩,
   ⟨8, 0xc351ad9aec0b681, 0x4f8876863479a286⟩, ⟨8, 0xcc6db6100000000, 0x4094d8a3041b60eb⟩,
   ⟨8, 0xd5e85d09025c181, 0x32600b8ed883a09b⟩, ⟨8, 0xdfc4e816401c100, 0x24df8c6eb4b6d1f1⟩,
   ⟨8, 0xea06b4c72947221, 0x18097a8ee151acef⟩, ⟨8, 0xf4b139365210000, 0xbd48cc8ec1cd8e3⟩,
   ⟨8, 0xffc80497d520961, 0x3807a8d67485fb⟩, ⟨8, 0x10b4ebfca1dee100, 0xea5768860b62e8d8⟩,
   ⟨8, 0x117492de921fc141, 0xd54faf5b635c5005⟩, ⟨8, 0x123bb2ce41000000, 0xc14a56233a377926⟩,
   ⟨8, 0x130a8b6157bdecc1, 0xae39a88db7cd329f⟩, ⟨8, 0x13e15dede0e8a100, 0x9c10bde69efa7ab6⟩,
   ⟨8, 0x14c06d941c0ca7e1, 0x8ac36c42a2836497⟩, ⟨8, 0x15a7ff487a810000, 0x7a463c8b84f5ef67⟩,
   ⟨8, 0x169859ddc5c697a1, 0x6a8e5f5ad090fd4b⟩, ⟨8, 0x1791c60f6fed0100, 0x5b91a2943596fc56⟩,
   ⟨8, 0x18948e8c0e6fba01, 0x4d4667b1c468e8f0⟩, ⟨8, 0x19a1000000000000, 0x3fa39ab547994daf⟩,
   ⟨8, 0x1ab769203dafc601, 0x32a0a9b2faee1e2a⟩, ⟨8, 0x1bd81ab557f30100, 0x26357ceac0e96962⟩,
   ⟨8, 0x1d0367a69fed1ba1, 0x1a5a6f65caa5859e⟩, ⟨8, 0x1e39a5057d810000, 0xf08480f672b4e86⟩,
   ⟨8, 0x1f7b2a18f29ac3e1, 0x4383340615612ca⟩, ⟨8, 0x20c850694c2aa100, 0xf3c77969ee4be5a2⟩,
   ⟨8, 0x222173cc014980c1, 0xe00993cc187c5ec9⟩, ⟨8, 0x2386f26fc1000000, 0xcd2b297d889bc2b6⟩,
   ⟨8, 0x24f92ce8af296d41, 0xbb214d5064862b22⟩, ⟨8, 0x2678863cd0ece100, 0xa9e1a7ca7ea10e20⟩,
   ⟨8, 0x280563f0a9472d61, 0x99626e72b39ea0cf⟩, ⟨8, 0x29a02e1406210000, 0x899a5ba9c13fafd9⟩,
   ⟨8, 0x2b494f4efe6d2e21, 0x7a80a705391e96ff⟩, ⟨8, 0x2d0134ef21cbc100, 0x6c0cfe23de23042a⟩,
   ⟨8, 0x2ec84ef4da2ef581, 0x5e377df359c944dd⟩, ⟨8, 0x309f102100000000, 0x50f8ac5fc8f53985⟩,
   ⟨8, 0x3285ee02a1420281, 0x44497266278e35b7⟩, ⟨8, 0x347d6104fc324100, 0x382316831f7ee175⟩,
   ⟨8, 0x3685e47dade53d21, 0x2c7f377833b8946e⟩, ⟨8, 0x389ff6bb15610000, 0x2157c761ab4163ef⟩,
   ⟨8, 0x3acc1912ebb57661, 0x16a7071803cc49a9⟩, ⟨8, 0x3d0acff111946100, 0xc6781d80f8224fc⟩,
   ⟨8, 0x3f5ca2e692eaf841, 0x294092d370a900b⟩, ⟨8, 0x41c21cb8e1000000, 0xf24f62335024a295⟩,
   ⟨8, 0x443bcb714399a5c1, 0xe03b98f103fad6d2⟩, ⟨8, 0x46ca406c81af2100, 0xcee3d32cad2a9049⟩,
   ⟨8, 0x496e106ac22aaae1, 0xbe3f9df9277fdada⟩, ⟨8, 0x4c27d39fa5410000, 0xae46f0d94c05e933⟩,
   ⟨8, 0x4ef825c296e43ca1, 0x9ef2280fb437a33d⟩, ⟨8, 0x51dfa61f5ad88100, 0x9039ff426d3f284b⟩,
   ⟨8, 0x54def7a6d2f16901, 0x82178c6d6b51f8f4⟩, ⟨8, 0x57f6c10000000000, 0x74843b1ee4c1e053⟩,
   ⟨8, 0x5b27ac993df97701, 0x6779c7f90dc42f48⟩, ⟨8, 0x5e7268b9bbdf8100, 0x5af23c74f9ad9fe9⟩,
   ⟨8, 0x61d7a7932ff3d6a1, 0x4ee7eae2acdc617e⟩, ⟨8, 0x65581f53c8c10000, 0x43556aa2ac262a0b⟩,
   ⟨8, 0x68f48a385b8320e1, 0x3835949593b8ddd1⟩, ⟨8, 0x6cada69ed07c2100, 0x2d837fbe78458762⟩,
   ⟨8, 0x70843718cdbf27c1, 0x233a7e150a54a555⟩, ⟨8, 0x7479027ea1000000, 0x19561984a50ff8fe⟩,
   ⟨8, 0x788cd40268f39641, 0xfd211159fe3490f⟩, ⟨8, 0x7cc07b437ecf6100, 0x6aa563e655033e3⟩,
   ⟨8, 0x8114cc6220762061, 0xfbb614b3f2d3b14c⟩, ⟨8, 0x858aa0135be10000, 0xeac0f8837fb05773⟩,
   ⟨8, 0x8a22d3b53c54c321, 0xda6e4c10e8615ca5⟩, ⟨8, 0x8ede496339f34100, 0xcab755a8d01fa67f⟩,
   ⟨8, 0x93bde80aec3a1481, 0xbb95a9ae71aa3e0c⟩, ⟨8, 0x98c29b8100000000, 0xad0326c296b4f529⟩,
   ⟨8, 0x9ded549671832381, 0x9ef9f21eed31b7c1⟩, ⟨8, 0xa33f092e0b1ac100, 0x91747422be14b0b2⟩,
   ⟨8, 0xa8b8b452291fe821, 0x846d550e37b5063d⟩, ⟨8, 0xae5b564ac3a10000, 0x77df79e9a96c06f6⟩,
   ⟨8, 0xb427f4b3be74c361, 0x6bc6019636c7d0c2⟩, ⟨8, 0xba1f9a938041e100, 0x601c4205aebd9e47⟩,
   ⟨8, 0xc0435871d1110f41, 0x54ddc59756f05016⟩, ⟨8, 0xc694446f01000000, 0x4a0648979c838c18⟩,
   ⟨8, 0xcd137a5b57ac3ec1, 0x3f91b6e0bb3a053d⟩, ⟨8, 0xd3c21bcecceda100, 0x357c299a88ea76a5⟩,
   ⟨8, 0xdaa150410b788de1, 0x2bc1e517aecc56e3⟩, ⟨8, 0xe1b24521be010000, 0x225f56ceb3da9f5d⟩,
   ⟨8, 0xe8f62df12777c1a1, 0x1951136d53ad63ac⟩, ⟨8, 0xf06e445906fc0100, 0x1093d504b3cd7d93⟩,
   ⟨8, 0xf81bc845c81bf801, 0x824794d1ec1814f⟩, ⟨8, 0x8, 0⟩]

/-- `mp_bases[base]`. -/
def mpBases (base : ℕ) : Bases := mpBasesTable[base]?.getD ⟨0, 0, 0⟩

/-- `MP_BASES_CHARS_PER_LIMB_10`. -/
def mpBasesCharsPerLimb10 : ℕ := 19

/-- `MP_BASES_BIG_BASE_10`. -/
def mpBasesBigBase10 : UInt64 := 0x8ac7230489e80000

/-- `MP_BASES_BIG_BASE_INVERTED_10`. -/
def mpBasesBigBaseInverted10 : UInt64 := 0xd83c94fb6d2ac34a

/-- `MP_BASES_NORMALIZATION_STEPS_10`. -/
def mpBasesNormalizationSteps10 : ℕ := 0

/-- `POW2_P (n)`. -/
def pow2P (n : ℕ) : Bool := n &&& (n - 1) == 0

/-- `__gmp_digit_value_tab`. -/
def digitValueTab : List UInt8 :=
  [255, 255, 255, 255, 255, 255, 255, 255, 255, 255, 255, 255, 255, 255, 255, 255, 255, 255, 255, 255,
   255, 255, 255, 255, 255, 255, 255, 255, 255, 255, 255, 255, 255, 255, 255, 255, 255, 255, 255, 255,
   255, 255, 255, 255, 255, 255, 255, 255, 0, 1, 2, 3, 4, 5, 6, 7, 8, 9, 255, 255,
   255, 255, 255, 255, 255, 10, 11, 12, 13, 14, 15, 16, 17, 18, 19, 20, 21, 22, 23, 24,
   25, 26, 27, 28, 29, 30, 31, 32, 33, 34, 35, 255, 255, 255, 255, 255, 255, 10, 11, 12,
   13, 14, 15, 16, 17, 18, 19, 20, 21, 22, 23, 24, 25, 26, 27, 28, 29, 30, 31, 32,
   33, 34, 35, 255, 255, 255, 255, 255, 255, 255, 255, 255, 255, 255, 255, 255, 255, 255, 255, 255,
   255, 255, 255, 255, 255, 255, 255, 255, 255, 255, 255, 255, 255, 255, 255, 255, 255, 255, 255, 255,
   255, 255, 255, 255, 255, 255, 255, 255, 255, 255, 255, 255, 255, 255, 255, 255, 255, 255, 255, 255,
   255, 255, 255, 255, 255, 255, 255, 255, 255, 255, 255, 255, 255, 255, 255, 255, 255, 255, 255, 255,
   255, 255, 255, 255, 255, 255, 255, 255, 255, 255, 255, 255, 255, 255, 255, 255, 255, 255, 255, 255,
   255, 255, 255, 255, 255, 255, 255, 255, 255, 255, 255, 255, 255, 255, 255, 255, 255, 255, 255, 255,
   255, 255, 255, 255, 255, 255, 255, 255, 255, 255, 255, 255, 255, 255, 255, 255, 255, 255, 255, 255,
   255, 255, 255, 255, 255, 255, 255, 255, 255, 255, 255, 255, 0, 1, 2, 3, 4, 5, 6, 7,
   8, 9, 255, 255, 255, 255, 255, 255, 255, 10, 11, 12, 13, 14, 15, 16, 17, 18, 19, 20,
   21, 22, 23, 24, 25, 26, 27, 28, 29, 30, 31, 32, 33, 34, 35, 255, 255, 255, 255, 255,
   255, 36, 37, 38, 39, 40, 41, 42, 43, 44, 45, 46, 47, 48, 49, 50, 51, 52, 53, 54,
   55, 56, 57, 58, 59, 60, 61, 255, 255, 255, 255, 255, 255, 255, 255, 255, 255, 255, 255, 255,
   255, 255, 255, 255, 255, 255, 255, 255, 255, 255, 255, 255, 255, 255, 255, 255, 255, 255, 255, 255,
   255, 255, 255, 255, 255, 255, 255, 255, 255, 255, 255, 255, 255, 255, 255, 255, 255, 255, 255, 255,
   255, 255, 255, 255, 255, 255, 255, 255, 255, 255, 255, 255, 255, 255, 255, 255, 255, 255, 255, 255,
   255, 255, 255, 255, 255, 255, 255, 255, 255, 255, 255, 255, 255, 255, 255, 255, 255, 255, 255, 255,
   255, 255, 255, 255, 255, 255, 255, 255, 255, 255, 255, 255, 255, 255, 255, 255, 255, 255, 255, 255,
   255, 255, 255, 255, 255, 255, 255, 255, 255, 255, 255, 255, 255, 255, 255, 255, 255, 255, 255, 255]

/-! ### The bases -/

/-- What `gmp-impl.h` says of a row whose base is no power of two: `big_base` is the
largest power of the base that fits a limb, and the inverse is that of `big_base`
shifted to the top of the limb. -/
structure Bases.Fits (base : ℕ) (r : Bases) : Prop where
  charsPerLimb_pos : 0 < r.charsPerLimb
  bigBase_eq : r.bigBase.toNat = base ^ r.charsPerLimb
  le_mul : 2 ^ 64 ≤ base * r.bigBase.toNat
  reciprocal : IsReciprocal (2 ^ 64) (2 ^ countLeadingZeros r.bigBase * r.bigBase.toNat)
    r.bigBaseInverted.toNat

/-- What it says of a row whose base is a power of two. -/
structure Bases.FitsPow2 (base : ℕ) (r : Bases) : Prop where
  bits_pos : 0 < r.bigBase.toNat
  base_eq : base = 2 ^ r.bigBase.toNat
  charsPerLimb_eq : r.charsPerLimb = 64 / r.bigBase.toNat

instance (β d v : ℕ) : Decidable (IsReciprocal β d v) :=
  decidable_of_iff ((β + v) * d < β * β ∧ β * β ≤ (β + v + 1) * d)
    ⟨fun h => ⟨h.1, h.2⟩, fun h => ⟨h.1, h.2⟩⟩

instance (base : ℕ) (r : Bases) : Decidable (r.Fits base) :=
  decidable_of_iff (0 < r.charsPerLimb ∧ r.bigBase.toNat = base ^ r.charsPerLimb ∧
      2 ^ 64 ≤ base * r.bigBase.toNat ∧ IsReciprocal (2 ^ 64)
        (2 ^ countLeadingZeros r.bigBase * r.bigBase.toNat) r.bigBaseInverted.toNat)
    ⟨fun h => ⟨h.1, h.2.1, h.2.2.1, h.2.2.2⟩, fun h => ⟨h.1, h.2, h.3, h.4⟩⟩

instance (base : ℕ) (r : Bases) : Decidable (r.FitsPow2 base) :=
  decidable_of_iff (0 < r.bigBase.toNat ∧ base = 2 ^ r.bigBase.toNat ∧
      r.charsPerLimb = 64 / r.bigBase.toNat)
    ⟨fun h => ⟨h.1, h.2.1, h.2.2⟩, fun h => ⟨h.1, h.2, h.3⟩⟩

private theorem mpBases_checked : ∀ base < 257, 2 ≤ base →
    if pow2P base then (mpBases base).FitsPow2 base else (mpBases base).Fits base := by
  decide +kernel

variable {base : ℕ}

/-- **Every row of a base that is no power of two is right.** -/
theorem mpBases_fits (h2 : 2 ≤ base) (h256 : base ≤ 256) (hp : pow2P base = false) :
    (mpBases base).Fits base := by
  have h := mpBases_checked base (by omega) h2
  rwa [hp] at h

/-- **Every row of a power of two is right.** -/
theorem mpBases_fitsPow2 (h2 : 2 ≤ base) (h256 : base ≤ 256) (hp : pow2P base = true) :
    (mpBases base).FitsPow2 base := by
  have h := mpBases_checked base (by omega) h2
  rwa [hp] at h

theorem toNat_ofNat_base (h : base ≤ 256) : (UInt64.ofNat base).toNat = base := by
  rw [UInt64.toNat_ofNat', Nat.mod_eq_of_lt (by omega)]

/-- A group of at most `charsPerLimb` digits and its power of the base fit a limb. -/
theorem Bases.Fits.pow_lt (hfit : (mpBases base).Fits base) (h2 : 2 ≤ base) {n : ℕ}
    (hn : n ≤ (mpBases base).charsPerLimb) : base ^ n < 2 ^ 64 := by
  calc base ^ n ≤ base ^ (mpBases base).charsPerLimb := Nat.pow_le_pow_right (by omega) hn
    _ = (mpBases base).bigBase.toNat := hfit.bigBase_eq.symm
    _ < 2 ^ 64 := UInt64.toNat_lt _

/-- The constants for base ten are its row. -/
theorem mpBases_ten : mpBases 10
    = ⟨mpBasesCharsPerLimb10, mpBasesBigBase10, mpBasesBigBaseInverted10⟩ := rfl

theorem countLeadingZeros_ten :
    countLeadingZeros mpBasesBigBase10 = mpBasesNormalizationSteps10 := by
  decide +kernel

end Mpir
end SecureDesign
