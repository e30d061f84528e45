import Exfat.Model.Types

namespace Exfat
open Lib

/-! `mkfs/uctc.c`: the compressed upper case table that mkfs writes. -/

/-- The bytes of `upcase_table`, 48 to a number, least significant first. -/
def upcaseRows : List Nat := [
  0x170016001500140013001200110010000f000e000d000c000b000a0009000800070006000500040003000200010000,
  0x2f002e002d002c002b002a0029002800270026002500240023002200210020001f001e001d001c001b001a00190018,
  0x470046004500440043004200410040003f003e003d003c003b003a0039003800370036003500340033003200310030,
  0x5f005e005d005c005b005a0059005800570056005500540053005200510050004f004e004d004c004b004a00490048,
  0x570056005500540053005200510050004f004e004d004c004b004a0049004800470046004500440043004200410060,
  0x8f008e008d008c008b008a0089008800870086008500840083008200810080007f007e007d007c007b005a00590058,
  0xa700a600a500a400a300a200a100a0009f009e009d009c009b009a0099009800970096009500940093009200910090,
  0xbf00be00bd00bc00bb00ba00b900b800b700b600b500b400b300b200b100b000af00ae00ad00ac00ab00aa00a900a8,
  0xd700d600d500d400d300d200d100d000cf00ce00cd00cc00cb00ca00c900c800c700c600c500c400c300c200c100c0,
  0xcf00ce00cd00cc00cb00ca00c900c800c700c600c500c400c300c200c100c000df00de00dd00dc00db00da00d900d8,
  0x1060106010401040102010201000100017800de00dd00dc00db00da00d900d800f700d600d500d400d300d200d100d0,
  0x11e011e011c011c011a011a0118011801160116011401140112011201100110010e010e010c010c010a010a01080108,
  0x1360136013401340132013201310130012e012e012c012c012a012a0128012801260126012401240122012201200120,
  0x14e014e014c014c014a014a014901470147014501450143014301410141013f013f013d013d013b013b013901390138,
  0x1660166016401640162016201600160015e015e015c015c015a015a0158015801560156015401540152015201500150,
  0x17f017d017d017b017b01790179017801760176017401740172017201700170016e016e016c016c016a016a01680168,
  0x197019601f601940193019101910190018f018e018d018b018b018a0189018701870186018401840182018201810243,
  0x1af01ae01ac01ac01ab01aa01a901a701a701a601a401a401a201a201a001a0019f0220019d019c019b023d01980198,
  0x1c701c401c501c401c301c201c101c001f701be01bc01bc01bb01ba01b801b801b701b501b501b301b301b201b101af,
  0x1de01de018e01db01db01d901d901d701d701d501d501d301d301d101d101cf01cf01cd01cd01ca01cb01ca01c701c8,
  0x1f701f601f401f401f101f201f101f001ee01ee01ec01ec01ea01ea01e801e801e601e601e401e401e201e201e001e0,
  0x20e020e020c020c020a020a020802080206020602040204020202020200020001fe01fe01fc01fc01fa01fa01f801f8,
  0x2260226022402240222022202210220021e021e021c021c021a021a0218021802160216021402140212021202100210,
  0x23f2c66023d023b023b2c650239023802370236023502340232023202300230022e022e022c022c022a022a02280228,
  0x18a0189025501860181025202510250024e024e024c024c024a024a0248024802460246024502440243024102410240,
  0x19c026e026d026c2c62026a0196019702670266026502640194026202610193025f025e025d025c0190025a018f0258,
  0x28702860285028401a90282028101a6027f027e2c64027c027b027a0279027802770276019f02740273019d02710270,
  0x29f029e029d029c029b029a029902980297029602950294029301b702910290028f028e028d024501b201b1024401ae,
  0x2b702b602b502b402b302b202b102b002af02ae02ad02ac02ab02aa02a902a802a702a602a502a402a302a202a102a0,
  0x2cf02ce02cd02cc02cb02ca02c902c802c702c602c502c402c302c202c102c002bf02be02bd02bc02bb02ba02b902b8,
  0x2e702e602e502e402e302e202e102e002df02de02dd02dc02db02da02d902d802d702d602d502d402d302d202d102d0,
  0x2ff02fe02fd02fc02fb02fa02f902f802f702f602f502f402f302f202f102f002ef02ee02ed02ec02eb02ea02e902e8,
  0x3170316031503140313031203110310030f030e030d030c030b030a0309030803070306030503040303030203010300,
  0x32f032e032d032c032b032a0329032803270326032503240323032203210320031f031e031d031c031b031a03190318,
  0x3470346034503440343034203410340033f033e033d033c033b033a0339033803370336033503340333033203310330,
  0x35f035e035d035c035b035a0359035803570356035503540353035203510350034f034e034d034c034b034a03490348,
  0x3770376037503740373037203710370036f036e036d036c036b036a0369036803670366036503640363036203610360,
  0x38f038e038d038c038b038a0389038803870386038503840383038203810380037f037e03ff03fe03fd037a03790378,
  0x3a703a603a503a403a303a203a103a0039f039e039d039c039b039a0399039803970396039503940393039203910390,
  0x39f039e039d039c039b039a03990398039703960395039403930392039103b0038a03890388038603ab03aa03a903a8,
  0x3d703d603d503d403d303d203d103d003cf038f038e038c03ab03aa03a903a803a703a603a503a403a303a303a103a0,
  0x3ee03ee03ec03ec03ea03ea03e803e803e603e603e403e403e203e203e003e003de03de03dc03dc03da03da03d803d8,
  0x407040604050404040304020401040003ff03fe03fd03fc03fa03fa03f903f703f703f603f503f403f303f903f103f0,
  0x41f041e041d041c041b041a0419041804170416041504140413041204110410040f040e040d040c040b040a04090408,
  0x4170416041504140413041204110410042f042e042d042c042b042a0429042804270426042504240423042204210420,
  0x42f042e042d042c042b042a0429042804270426042504240423042204210420041f041e041d041c041b041a04190418,
  0x4660466046404640462046204600460040f040e040d040c040b040a0409040804070406040504040403040204010400,
  0x47e047e047c047c047a047a0478047804760476047404740472047204700470046e046e046c046c046a046a04680468,
  0x4960496049404940492049204900490048e048e048c048c048a048a0489048804870486048504840483048204800480,
  0x4ae04ae04ac04ac04aa04aa04a804a804a604a604a404a404a204a204a004a0049e049e049c049c049a049a04980498,
  0x4c704c504c504c304c304c104c104c004be04be04bc04bc04ba04ba04b804b804b604b604b404b404b204b204b004b0,
  0x4de04de04dc04dc04da04da04d804d804d604d604d404d404d204d204d004d004c004cd04cd04cb04cb04c904c904c7,
  0x4f604f604f404f404f204f204f004f004ee04ee04ec04ec04ea04ea04e804e804e604e604e404e404e204e204e004e0,
  0x50e050e050c050c050a050a050805080506050605040504050205020500050004fe04fe04fc04fc04fa04fa04f804f8,
  0x5270526052505240523052205210520051f051e051d051c051b051a0519051805170516051505140512051205100510,
  0x53f053e053d053c053b053a0539053805370536053505340533053205310530052f052e052d052c052b052a05290528,
  0x5570556055505540553055205510550054f054e054d054c054b054a0549054805470546054505440543054205410540,
  0x53f053e053d053c053b053a0539053805370536053505340533053205310560055f055e055d055c055b055a05590558,
  0xffff0556055505540553055205510550054f054e054d054c054b054a0549054805470546054505440543054205410540,
  0x1d931d921d911d901d8f1d8e1d8d1d8c1d8b1d8a1d891d881d871d861d851d841d831d821d811d801d7f1d7e2c6317f6,
  0x1dab1daa1da91da81da71da61da51da41da31da21da11da01d9f1d9e1d9d1d9c1d9b1d9a1d991d981d971d961d951d94,
  0x1dc31dc21dc11dc01dbf1dbe1dbd1dbc1dbb1dba1db91db81db71db61db51db41db31db21db11db01daf1dae1dad1dac,
  0x1ddb1dda1dd91dd81dd71dd61dd51dd41dd31dd21dd11dd01dcf1dce1dcd1dcc1dcb1dca1dc91dc81dc71dc61dc51dc4,
  0x1df31df21df11df01def1dee1ded1dec1deb1dea1de91de81de71de61de51de41de31de21de11de01ddf1dde1ddd1ddc,
  0x1e0a1e0a1e081e081e061e061e041e041e021e021e001e001dff1dfe1dfd1dfc1dfb1dfa1df91df81df71df61df51df4,
  0x1e221e221e201e201e1e1e1e1e1c1e1c1e1a1e1a1e181e181e161e161e141e141e121e121e101e101e0e1e0e1e0c1e0c,
  0x1e3a1e3a1e381e381e361e361e341e341e321e321e301e301e2e1e2e1e2c1e2c1e2a1e2a1e281e281e261e261e241e24,
  0x1e521e521e501e501e4e1e4e1e4c1e4c1e4a1e4a1e481e481e461e461e441e441e421e421e401e401e3e1e3e1e3c1e3c,
  0x1e6a1e6a1e681e681e661e661e641e641e621e621e601e601e5e1e5e1e5c1e5c1e5a1e5a1e581e581e561e561e541e54,
  0x1e821e821e801e801e7e1e7e1e7c1e7c1e7a1e7a1e781e781e761e761e741e741e721e721e701e701e6e1e6e1e6c1e6c,
  0x1e9b1e9a1e991e981e971e961e941e941e921e921e901e901e8e1e8e1e8c1e8c1e8a1e8a1e881e881e861e861e841e84,
  0x1eb21eb21eb01eb01eae1eae1eac1eac1eaa1eaa1ea81ea81ea61ea61ea41ea41ea21ea21ea01ea01e9f1e9e1e9d1e9c,
  0x1eca1eca1ec81ec81ec61ec61ec41ec41ec21ec21ec01ec01ebe1ebe1ebc1ebc1eba1eba1eb81eb81eb61eb61eb41eb4,
  0x1ee21ee21ee01ee01ede1ede1edc1edc1eda1eda1ed81ed81ed61ed61ed41ed41ed21ed21ed01ed01ece1ece1ecc1ecc,
  0x1efb1efa1ef81ef81ef61ef61ef41ef41ef21ef21ef01ef01eee1eee1eec1eec1eea1eea1ee81ee81ee61ee61ee41ee4,
  0x1f1b1f1a1f191f181f0f1f0e1f0d1f0c1f0b1f0a1f091f081f0f1f0e1f0d1f0c1f0b1f0a1f091f081eff1efe1efd1efc,
  0x1f2b1f2a1f291f281f2f1f2e1f2d1f2c1f2b1f2a1f291f281f1f1f1e1f1d1f1c1f1b1f1a1f191f181f171f161f1d1f1c,
  0x1f4b1f4a1f491f481f3f1f3e1f3d1f3c1f3b1f3a1f391f381f3f1f3e1f3d1f3c1f3b1f3a1f391f381f2f1f2e1f2d1f2c,
  0x1f5b1f5a1f591f581f5f1f561f5d1f541f5b1f521f591f501f4f1f4e1f4d1f4c1f4b1f4a1f491f481f471f461f4d1f4c,
  0x1fc91fc81fbb1fba1f6f1f6e1f6d1f6c1f6b1f6a1f691f681f6f1f6e1f6d1f6c1f6b1f6a1f691f681f5f1f5e1f5d1f5c,
  0x1f8b1f8a1f891f881f8f1f8e1f8d1f8c1f8b1f8a1f891f881f7f1f7e1ffb1ffa1feb1fea1ff91ff81fdb1fda1fcb1fca,
  0x1fab1faa1fa91fa81f9f1f9e1f9d1f9c1f9b1f9a1f991f981f9f1f9e1f9d1f9c1f9b1f9a1f991f981f8f1f8e1f8d1f8c,
  0x1fbb1fba1fb91fb81fb71fb61fb51fb41fbc1fb21fb91fb81faf1fae1fad1fac1fab1faa1fa91fa81faf1fae1fad1fac,
  0x1fd31fd21fd91fd81fcf1fce1fcd1fc31fcb1fca1fc91fc81fc71fc61fc51fc41fc31fc21fc11fc01fbf1fbe1fbd1fbc,
  0x1feb1fea1fe91fe81fe71fe61fec1fe41fe31fe21fe91fe81fdf1fde1fdd1fdc1fdb1fda1fd91fd81fd71fd61fd51fd4,
  0x20032002200120001fff1ffe1ffd1ff31ffb1ffa1ff91ff81ff71ff61ff51ff41ff31ff21ff11ff01fef1fee1fed1fec,
  0x201b201a2019201820172016201520142013201220112010200f200e200d200c200b200a200920082007200620052004,
  0x2033203220312030202f202e202d202c202b202a2029202820272026202520242023202220212020201f201e201d201c,
  0x204b204a2049204820472046204520442043204220412040203f203e203d203c203b203a203920382037203620352034,
  0x2063206220612060205f205e205d205c205b205a2059205820572056205520542053205220512050204f204e204d204c,
  0x207b207a2079207820772076207520742073207220712070206f206e206d206c206b206a206920682067206620652064,
  0x2093209220912090208f208e208d208c208b208a2089208820872086208520842083208220812080207f207e207d207c,
  0x20ab20aa20a920a820a720a620a520a420a320a220a120a0209f209e209d209c209b209a209920982097209620952094,
  0x20c320c220c120c020bf20be20bd20bc20bb20ba20b920b820b720b620b520b420b320b220b120b020af20ae20ad20ac,
  0x20db20da20d920d820d720d620d520d420d320d220d120d020cf20ce20cd20cc20cb20ca20c920c820c720c620c520c4,
  0x20f320f220f120f020ef20ee20ed20ec20eb20ea20e920e820e720e620e520e420e320e220e120e020df20de20dd20dc,
  0x210b210a210921082107210621052104210321022101210020ff20fe20fd20fc20fb20fa20f920f820f720f620f520f4,
  0x2123212221212120211f211e211d211c211b211a2119211821172116211521142113211221112110210f210e210d210c,
  0x213b213a2139213821372136213521342133213221312130212f212e212d212c212b212a212921282127212621252124,
  0x2153215221512150214f2132214d214c214b214a2149214821472146214521442143214221412140213f213e213d213c,
  0x216b216a2169216821672166216521642163216221612160215f215e215d215c215b215a215921582157215621552154,
  0x2183218221812180216f216e216d216c216b216a2169216821672166216521642163216221612160216f216e216d216c,
  0x24ca24c924c824c724c624c524c424c324c224c124c024bf24be24bd24bc24bb24ba24b924b824b724b6034bffff2183,
  0x2c102c0f2c0e2c0d2c0c2c0b2c0a2c092c082c072c062c052c042c032c022c012c000746ffff24cf24ce24cd24cc24cb,
  0x2c282c272c262c252c242c232c222c212c202c1f2c1e2c1d2c1c2c1b2c1a2c192c182c172c162c152c142c132c122c11,
  0x2c702c6f2c6e2c6d2c6b2c6b2c692c692c672c672c662c652c642c632c622c602c602c5f2c2e2c2d2c2c2c2b2c2a2c29,
  0x2c882c862c862c842c842c822c822c802c802c7f2c7e2c7d2c7c2c7b2c7a2c792c782c772c752c752c742c732c722c71,
  0x2ca02c9e2c9e2c9c2c9c2c9a2c9a2c982c982c962c962c942c942c922c922c902c902c8e2c8e2c8c2c8c2c8a2c8a2c88,
  0x2cb82cb62cb62cb42cb42cb22cb22cb02cb02cae2cae2cac2cac2caa2caa2ca82ca82ca62ca62ca42ca42ca22ca22ca0,
  0x2cd02cce2cce2ccc2ccc2cca2cca2cc82cc82cc62cc62cc42cc42cc22cc22cc02cc02cbe2cbe2cbc2cbc2cba2cba2cb8,
  0x2ce82ce72ce62ce52ce42ce22ce22ce02ce02cde2cde2cdc2cdc2cda2cda2cd82cd82cd62cd62cd42cd42cd22cd22cd0,
  0x10a02cff2cfe2cfd2cfc2cfb2cfa2cf92cf82cf72cf62cf52cf42cf32cf22cf12cf02cef2cee2ced2cec2ceb2cea2ce9,
  0x10b810b710b610b510b410b310b210b110b010af10ae10ad10ac10ab10aa10a910a810a710a610a510a410a310a210a1,
  0xff29ff28ff27ff26ff25ff24ff23ff22ff21d21bffff10c510c410c310c210c110c010bf10be10bd10bc10bb10ba10b9,
  0xff61ff60ff5fff5eff5dff5cff5bff3aff39ff38ff37ff36ff35ff34ff33ff32ff31ff30ff2fff2eff2dff2cff2bff2a,
  0xff79ff78ff77ff76ff75ff74ff73ff72ff71ff70ff6fff6eff6dff6cff6bff6aff69ff68ff67ff66ff65ff64ff63ff62,
  0xff91ff90ff8fff8eff8dff8cff8bff8aff89ff88ff87ff86ff85ff84ff83ff82ff81ff80ff7fff7eff7dff7cff7bff7a,
  0xffa9ffa8ffa7ffa6ffa5ffa4ffa3ffa2ffa1ffa0ff9fff9eff9dff9cff9bff9aff99ff98ff97ff96ff95ff94ff93ff92,
  0xffc1ffc0ffbfffbeffbdffbcffbbffbaffb9ffb8ffb7ffb6ffb5ffb4ffb3ffb2ffb1ffb0ffafffaeffadffacffabffaa,
  0xffd9ffd8ffd7ffd6ffd5ffd4ffd3ffd2ffd1ffd0ffcfffceffcdffccffcbffcaffc9ffc8ffc7ffc6ffc5ffc4ffc3ffc2,
  0xfff1fff0ffefffeeffedffecffebffeaffe9ffe8ffe7ffe6ffe5ffe4ffe3ffe2ffe1ffe0ffdfffdeffddffdcffdbffda,
  0xfffffffefffdfffcfffbfffafff9fff8fff7fff6fff5fff4fff3fff2]

/-- `upcase_table`. -/
def upcaseTable : List UInt8 := (upcaseRows.flatMap (toLe 48)).take 5836

end Exfat
