import Qirc.Text.Packed

/-!
# Canonical decompositions

The canonical decomposition data of Unicode 15. A composite is written by rows: a mark, the
characters that compose with it, and the composites in the same order.
-/

namespace Qirc.Text

/-- For a mark, the characters it composes with and the composites, position by position. -/
structure CompositeRow where
  mark : Nat
  bases : String
  composites : String

def compositeRows : List CompositeRow := [
  ⟨0x300,
    "AEIOUaeiouÜüNnЕИеиĒēŌōWwÂâĂăÊêÔôƠơƯưYyἀἁἈἉἐἑἘἙἠἡἨἩἰἱἸἹὀὁὈὉὐὑὙὠὡὨὩαεηιουω" ++
    "ΑΕΗ᾿ϊΙ῾ϋΥ¨ΟΩ",
    "ÀÈÌÒÙàèìòùǛǜǸǹЀЍѐѝḔḕṐṑẀẁẦầẰằỀềỒồỜờỪừỲỳἂἃἊἋἒἓἚἛἢἣἪἫἲἳἺἻὂὃὊὋὒὓὛὢὣὪὫὰὲὴὶὸὺὼ" ++
    "ᾺῈῊ῍ῒῚ῝ῢῪ῭ῸῺ"⟩,
  ⟨0x301,
    "AEIOUYaeiouyCcLlNnRrSsZzÜüGgÅåÆæØø¨ΑΕΗΙΟΥΩϊαεηιϋουωϒГКгкÇçĒēÏïKkMmÕõŌōPp" ++
    "ŨũWwÂâĂăÊêÔôƠơƯưἀἁἈἉἐἑἘἙἠἡἨἩἰἱἸἹὀὁὈὉὐὑὙὠὡὨὩ᾿῾",
    "ÁÉÍÓÚÝáéíóúýĆćĹĺŃńŔŕŚśŹźǗǘǴǵǺǻǼǽǾǿ΅ΆΈΉΊΌΎΏΐάέήίΰόύώϓЃЌѓќḈḉḖḗḮḯḰḱḾḿṌṍṒṓṔṕ" ++
    "ṸṹẂẃẤấẮắẾếỐốỚớỨứἄἅἌἍἔἕἜἝἤἥἬἭἴἵἼἽὄὅὌὍὔὕὝὤὥὬὭ῎῞"⟩,
  ⟨0x302, "AEIOUaeiouCcGgHhJjSsWwYyZzẠạẸẹỌọ", "ÂÊÎÔÛâêîôûĈĉĜĝĤĥĴĵŜŝŴŵŶŷẐẑẬậỆệỘộ"⟩,
  ⟨0x303, "ANOanoIiUuVvÂâĂăEeÊêÔôƠơƯưYy", "ÃÑÕãñõĨĩŨũṼṽẪẫẴẵẼẽỄễỖỗỠỡỮữỸỹ"⟩,
  ⟨0x304,
    "AaEeIiOoUuÜüÄäȦȧÆæǪǫÖöÕõȮȯYyИиУуGgḶḷṚṛαΑιΙυΥ",
    "ĀāĒēĪīŌōŪūǕǖǞǟǠǡǢǣǬǭȪȫȬȭȰȱȲȳӢӣӮӯḠḡḸḹṜṝᾱᾹῑῙῡῩ"⟩,
  ⟨0x306, "AaEeGgIiOoUuУИиуЖжАаЕеȨȩẠạαΑιΙυΥ", "ĂăĔĕĞğĬĭŎŏŬŭЎЙйўӁӂӐӑӖӗḜḝẶặᾰᾸῐῘῠῨ"⟩,
  ⟨0x307,
    "CcEeGgIZzAaOoBbDdFfHhMmNnPpRrSsŚśŠšṢṣTtWwXxYyſ",
    "ĊċĖėĠġİŻżȦȧȮȯḂḃḊḋḞḟḢḣṀṁṄṅṖṗṘṙṠṡṤṥṦṧṨṩṪṫẆẇẊẋẎẏẛ"⟩,
  ⟨0x308,
    "AEIOUaeiouyYΙΥιυϒЕІеіАаӘәЖжЗзИиОоӨөЭэУуЧчЫыHhÕõŪūWwXxt",
    "ÄËÏÖÜäëïöüÿŸΪΫϊϋϔЁЇёїӒӓӚӛӜӝӞӟӤӥӦӧӪӫӬӭӰӱӴӵӸӹḦḧṎṏṺṻẄẅẌẍẗ"⟩,
  ⟨0x309, "AaÂâĂăEeÊêIiOoÔôƠơUuƯưYy", "ẢảẨẩẲẳẺẻỂểỈỉỎỏỔổỞởỦủỬửỶỷ"⟩,
  ⟨0x30A, "AaUuwy", "ÅåŮůẘẙ"⟩,
  ⟨0x30B, "OoUuУу", "ŐőŰűӲӳ"⟩,
  ⟨0x30C,
    "CcDdEeLlNnRrSsTtZzAaIiOoUuÜüGgKkƷʒjHh",
    "ČčĎďĚěĽľŇňŘřŠšŤťŽžǍǎǏǐǑǒǓǔǙǚǦǧǨǩǮǯǰȞȟ"⟩,
  ⟨0x30F, "AaEeIiOoRrUuѴѵ", "ȀȁȄȅȈȉȌȍȐȑȔȕѶѷ"⟩,
  ⟨0x311, "AaEeIiOoRrUu", "ȂȃȆȇȊȋȎȏȒȓȖȗ"⟩,
  ⟨0x313, "αΑεΕηΗιΙοΟυωΩρ", "ἀἈἐἘἠἨἰἸὀὈὐὠὨῤ"⟩,
  ⟨0x314, "αΑεΕηΗιΙοΟυΥωΩρΡ", "ἁἉἑἙἡἩἱἹὁὉὑὙὡὩῥῬ"⟩,
  ⟨0x31B, "OoUu", "ƠơƯư"⟩,
  ⟨0x323,
    "BbDdHhKkLlMmNnRrSsTtVvWwZzAaEeIiOoƠơUuƯưYy",
    "ḄḅḌḍḤḥḲḳḶḷṂṃṆṇṚṛṢṣṬṭṾṿẈẉẒẓẠạẸẹỊịỌọỢợỤụỰựỴỵ"⟩,
  ⟨0x324, "Uu", "Ṳṳ"⟩,
  ⟨0x325, "Aa", "Ḁḁ"⟩,
  ⟨0x326, "SsTt", "ȘșȚț"⟩,
  ⟨0x327, "CcGgKkLlNnRrSsTtEeDdHh", "ÇçĢģĶķĻļŅņŖŗŞşŢţȨȩḐḑḨḩ"⟩,
  ⟨0x328, "AaEeIiUuOo", "ĄąĘęĮįŲųǪǫ"⟩,
  ⟨0x32D, "DdEeLlNnTtUu", "ḒḓḘḙḼḽṊṋṰṱṶṷ"⟩,
  ⟨0x32E, "Hh", "Ḫḫ"⟩,
  ⟨0x330, "EeIiUu", "ḚḛḬḭṴṵ"⟩,
  ⟨0x331, "BbDdKkLlNnRrTtZzh", "ḆḇḎḏḴḵḺḻṈṉṞṟṮṯẔẕẖ"⟩,
  ⟨0x338,
    "←→↔⇐⇔⇒∃∈∋∣∥∼≃≅≈=≡≍<>≤≥≲≳≶≷≺≻⊂⊃⊆⊇⊢⊨⊩⊫≼≽⊑⊒⊲⊳⊴⊵",
    "↚↛↮⇍⇎⇏∄∉∌∤∦≁≄≇≉≠≢≭≮≯≰≱≴≵≸≹⊀⊁⊄⊅⊈⊉⊬⊭⊮⊯⋠⋡⋢⋣⋪⋫⋬⋭"⟩,
  ⟨0x342, "ἀἁἈἉἠἡἨἩἰἱἸἹὐὑὙὠὡὨὩα¨η᾿ιϊ῾υϋω", "ἆἇἎἏἦἧἮἯἶἷἾἿὖὗὟὦὧὮὯᾶ῁ῆ῏ῖῗ῟ῦῧῶ"⟩,
  ⟨0x345,
    "ἀἁἂἃἄἅἆἇἈἉἊἋἌἍἎἏἠἡἢἣἤἥἦἧἨἩἪἫἬἭἮἯὠὡὢὣὤὥὦὧὨὩὪὫὬὭὮὯὰαάᾶΑὴηήῆΗὼωώῶΩ",
    "ᾀᾁᾂᾃᾄᾅᾆᾇᾈᾉᾊᾋᾌᾍᾎᾏᾐᾑᾒᾓᾔᾕᾖᾗᾘᾙᾚᾛᾜᾝᾞᾟᾠᾡᾢᾣᾤᾥᾦᾧᾨᾩᾪᾫᾬᾭᾮᾯᾲᾳᾴᾷᾼῂῃῄῇῌῲῳῴῷῼ"⟩,
  ⟨0x653, "ا", "آ"⟩,
  ⟨0x654, "اويەہے", "أؤئۀۂۓ"⟩,
  ⟨0x655, "ا", "إ"⟩,
  ⟨0x93C, "नरळ", "ऩऱऴ"⟩,
  ⟨0xBD7, "ஒ", "ஔ"⟩,
  ⟨0x102E, "ဥ", "ဦ"⟩,
  ⟨0x1B35, "ᬅᬇᬉᬋᬍᬑ", "ᬆᬈᬊᬌᬎᬒ"⟩,
  ⟨0x3099,
    "かきくけこさしすせそたちつてとはひふへほうゝカキクケコサシスセソタチツテトハヒフヘホウワヰヱヲヽ",
    "がぎぐげござじずぜぞだぢづでどばびぶべぼゔゞガギグゲゴザジズゼゾダヂヅデドバビブベボヴヷヸヹヺヾ"⟩,
  ⟨0x309A, "はひふへほハヒフヘホ", "ぱぴぷぺぽパピプペポ"⟩]

/-- Composites with a mark for base or result: the composite, its base and its mark. -/
def compositeMarks : List (Nat × Nat × Nat) := triples <| unpack <|
  "DSlDShDRyDSmDShDSxEHcEHbEHqEHfEHbEGsEHgEHbEHrEMcELyELqEMdELzELqEMeELyEMpEQyEQwERmEVoEVnEWjEVv" ++
  "EVuEWjEVwEVuEWkEVyEVuEVqEVzEVyEWjFAwFAsFAkFAxFAtFAkFAyFAsFBjFGkFGjFFuFGmFGjFFzFGnFGmFFuFGoFGj" ++
  "FGpKIdKIcKHxKIfKIeKHxKIiKIgKHxKIjKIhKHxKIlKIkKHxDZGcDZGbDZHiDZGeDZGdDZHiDZGtDZGnDZHiDZLuDZLxD" ++
  "ZLnDZLvDZLyDZLnEAGpEAGlEAGcEAGqEAGlEAHbEAUtEAUrEAUsEAUuEAUrEAUiEAUwEAUrEAUvEBEoEBEmEBEdEBEpEB" ++
  "EnEBEdECMyECMvECMq"

/-- Pairs that are taken apart and never put together again. -/
def splitOnly : List (Nat × Nat × Nat) := triples <| unpack <|
  "BGeBDwBDpDOaDLlDMyDObDLmDMyDOcDLnDMyDOdDLsDMyDOeDLxDMyDOfDLyDMyDOgDMhDMyDOhDMlDMyDTcDQvDRwDTd" ++
  "DQwDRwDTfDRjDRwDWlDWkDWuDWoDWqDWuDXxDViDWuDXyDVjDWuDXzDVoDWuDYcDWdDWuEHwEFpEGqEHxEFqEGqFUhFUg" ++
  "FYtFUrFUqFYtFUwFUvFYtFVbFVaFYtFVgFVfFYtFVtFUeFYrFWdFWbFWcFWfFWbFWeFWgFYoFWqFWiFYpFWqFWrFWbFWq" ++
  "FXjFXiFYtFXtFXsFYtFXyFXxFYtFYdFYcFYtFYiFYhFYtFYvFXgFYrQGaQGbBFsDRCnCFpCEeDRCpCGoCEhDRDaCGfCEr" ++
  "DRDbCGfCEsDRDcDREfCErDRDdDREfCEsDRDeCFgCEhDRDfCFgCEiDRDgCFgCEmDRDhCFhCEmDRDiCFiCEmDRDjCFjCEmD" ++
  "RDkCFkCEmDRDlCFlCEmDRDmCFmCEmDRDoCFoCEmDRDpCFpCEmDRDqCFqCEmDRDrCFrCEmDRDsCFsCEmDRDuCFuCEmDRDw" ++
  "CFwCEmDRDxCFxCEmDRDzCFzCEmDREaCGaCEmDREcCGcCEmDREdCGdCEmDREeCGeCEmDREfCGfCEmDREgCGgCEmDREhCFl" ++
  "CEjDREiCFhCEpDREjCFrCEpDREkCGaCEpGUGcGUFvGUGjGUGdGUFwGUGjGUGeGUGdGUGsGUGfGUGdGUGtGUGgGUGdGUGu" ++
  "GUGhGUGdGUGvGUGiGUGdGUGwGUJrGUJpGUGjGUJsGUJqGUGjGUJtGUJrGUGsGUJuGUJsGUGsGUJvGUJrGUGtGUJwGUJsG" ++
  "UGt"

/-- A run of consecutive characters, each of which stands for one other. -/
structure SingletonRun where
  first : Nat
  targets : String

def singletonRuns : List SingletonRun := [
  ⟨0x374, "ʹ"⟩,
  ⟨0x387, "·"⟩,
  ⟨0x1F71, "ά"⟩,
  ⟨0x1F73, "έ"⟩,
  ⟨0x1F75, "ή"⟩,
  ⟨0x1F77, "ί"⟩,
  ⟨0x1F79, "ό"⟩,
  ⟨0x1F7B, "ύ"⟩,
  ⟨0x1F7D, "ώ"⟩,
  ⟨0x1FBB, "Ά"⟩,
  ⟨0x1FBE, "ι"⟩,
  ⟨0x1FC9, "Έ"⟩,
  ⟨0x1FCB, "Ή"⟩,
  ⟨0x1FD3, "ΐ"⟩,
  ⟨0x1FDB, "Ί"⟩,
  ⟨0x1FE3, "ΰ"⟩,
  ⟨0x1FEB, "Ύ"⟩,
  ⟨0x1FEE, "΅"⟩,
  ⟨0x1FF9, "Ό"⟩,
  ⟨0x1FFB, "Ώ"⟩,
  ⟨0x1FFD, "´"⟩,
  ⟨0x2000, "  "⟩,
  ⟨0x2126, "Ω"⟩,
  ⟨0x212B, "Å"⟩,
  ⟨0x2329, "〈〉"⟩,
  ⟨0xF900,
    "豈更車賈滑串句龜龜契金喇奈懶癩羅蘿螺裸邏樂洛烙珞落酪駱亂卵欄爛蘭鸞嵐濫藍襤拉臘蠟廊朗浪狼" ++
    "郎來冷勞擄櫓爐盧老蘆虜路露魯鷺碌祿綠菉錄鹿論壟弄籠聾牢磊賂雷壘屢樓淚漏累縷陋勒肋凜凌稜綾" ++
    "菱陵讀拏樂諾丹寧怒率異北磻便復不泌數索參塞省葉說殺辰沈拾若掠略亮兩凉梁糧良諒量勵呂女廬旅" ++
    "濾礪閭驪麗黎力曆歷轢年憐戀撚漣煉璉秊練聯輦蓮連鍊列劣咽烈裂說廉念捻殮簾獵令囹寧嶺怜玲瑩羚" ++
    "聆鈴零靈領例禮醴隸惡了僚寮尿料樂燎療蓼遼龍暈阮劉杻柳流溜琉留硫紐類六戮陸倫崙淪輪律慄栗率" ++
    "隆利吏履易李梨泥理痢罹裏裡里離匿溺吝燐璘藺隣鱗麟林淋臨立笠粒狀炙識什茶刺切度拓糖宅洞暴輻" ++
    "行降見廓兀嗀"⟩,
  ⟨0xFA10, "塚"⟩,
  ⟨0xFA12, "晴"⟩,
  ⟨0xFA15, "凞猪益礼神祥福靖精羽"⟩,
  ⟨0xFA20, "蘒"⟩,
  ⟨0xFA22, "諸"⟩,
  ⟨0xFA25, "逸都"⟩,
  ⟨0xFA2A,
    "飯飼館鶴郞隷侮僧免勉勤卑喝嘆器塀墨層屮悔慨憎懲敏既暑梅海渚漢煮爫琢碑社祉祈祐祖祝禍禎穀突" ++
    "節練縉繁署者臭艹艹著褐視謁謹賓贈辶逸難響頻恵𤋮舘"⟩,
  ⟨0xFA70,
    "並况全侀充冀勇勺喝啕喙嗢塚墳奄奔婢嬨廒廙彩徭惘慎愈憎慠懲戴揄搜摒敖晴朗望杖歹殺流滛滋漢瀞" ++
    "煮瞧爵犯猪瑱甆画瘝瘟益盛直睊着磌窱節类絛練缾者荒華蝹襁覆視調諸請謁諾諭謹變贈輸遲醙鉶陼難" ++
    "靖韛響頋頻鬒龜𢡊𢡄𣏕㮝䀘䀹𥉉𥳐𧻓齃龎"⟩,
  ⟨0x2F800,
    "丽丸乁𠄢你侮侻倂偺備僧像㒞𠘺免兔兤具𠔜㒹內再𠕋冗冤仌冬况𩇟凵刃㓟刻剆割剷㔕勇勉勤勺包匆北" ++
    "卉卑博即卽卿卿卿𠨬灰及叟𠭣叫叱吆咞吸呈周咢哶唐啓啣善善喙喫喳嗂圖嘆圗噑噴切壮城埴堍型堲報" ++
    "墬𡓤売壷夆多夢奢𡚨𡛪姬娛娧姘婦㛮㛼嬈嬾嬾𡧈寃寘寧寳𡬘寿将当尢㞁屠屮峀岍𡷤嵃𡷦嵮嵫嵼巡巢㠯" ++
    "巽帨帽幩㡢𢆃㡼庰庳庶廊𪎒廾𢌱𢌱舁弢弢㣇𣊸𦇚形彫㣣徚忍志忹悁㤺㤜悔𢛔惇慈慌慎慌慺憎憲憤憯懞" ++
    "懲懶成戛扝抱拔捐𢬌挽拼捨掃揤𢯱搢揅掩㨮摩摾撝摷㩬敏敬𣀊旣書晉㬙暑㬈㫤冒冕最暜肭䏙朗望朡杞" ++
    "杓𣏃㭉柺枅桒梅𣑭梎栟椔㮝楂榣槪檨𣚣櫛㰘次𣢧歔㱎歲殟殺殻𣪍𡴋𣫺汎𣲼沿泍汧洖派海流浩浸涅𣴞洴" ++
    "港湮㴳滋滇𣻑淹潮𣽞𣾎濆瀹瀞瀛㶖灊災灷炭𠔥煅𤉣熜𤎫爨爵牐𤘈犀犕𤜵𤠔獺王㺬玥㺸㺸瑇瑜瑱璅瓊㼛" ++
    "甤𤰶甾𤲒異𢆟瘐𤾡𤾸𥁄㿼䀈直𥃳𥃲𥄙𥄳眞真真睊䀹瞋䁆䂖𥐝硎碌磌䃣𥘦祖𥚚𥛅福秫䄯穀穊穏𥥼𥪧𥪧竮" ++
    "䈂𥮫篆築䈧𥲀糒䊠糨糣紀𥾆絣䌁緇縂繅䌴𦈨𦉇䍙𦋙罺𦌾羕翺者𦓚𦔣聠𦖨聰𣍟䏕育脃䐋脾媵𦞧𦞵𣎓𣎜舁" ++
    "舄辞䑫芑芋芝劳花芳芽苦𦬼若茝荣莭茣莽菧著荓菊菌菜𦰶𦵫𦳕䔫蓱蓳蔖𧏊蕤𦼬䕝䕡𦾱𧃒䕫虐虜虧虩蚩" ++
    "蚈蜎蛢蝹蜨蝫螆䗗蟡蠁䗹衠衣𧙧裗裞䘵裺㒻𧢮𧥦䚾䛇誠諭變豕𧲨貫賁贛起𧼯𠠄跋趼跰𠣞軔輸𨗒𨗭邔郱" ++
    "鄑𨜮鄛鈸鋗鋘鉼鏹鐕𨯺開䦕閷𨵷䧦雃嶲霣𩅅𩈚䩮䩶韠𩐊䪲𩒖頋頋頩𩖶飢䬳餩馧駂駾䯎𩬰鬒鱀鳽䳎䳭鵧" ++
    "𪃎䳸𪄅𪈎𪊑麻䵖黹黾鼅鼏鼖鼻𪘀"⟩]

/-- Single characters that stand for an ASCII character or a mark. -/
def singletonMarks : List (Nat × Nat) := [
  (0x340, 0x300), (0x341, 0x301), (0x343, 0x313), (0x37E, 0x3B), (0x1FEF, 0x60), (0x212A, 0x4B)]

/-- Runs of code points with their combining class: how many code points stand before a run, how many
are in it, and their class. -/
def classes : List (Nat × Nat × Nat) := triples <| unpack <|
  "BDovIwabIyaeImabIyabIiafImacHuaeImacHualImafbaeImaiIwabJgabIwadImadIwacImbdIwaeImabIwabIyacIm" ++
  "abIwabIzacJaabIzacJaabIzanIwKpfIwKfbImaeIwabImadIwabIoabImagIwagImacIwabImacIwabIoabIuabIwabk" ++
  "ablabmabnaboabpabqabrabsactabuabvabwbbxbbyabzbbIwabImbbsCuiIwabBeabBfabBgBwbBbabBcabBdabBeabB" ++
  "fabBgabBhabBiacIwacImafIwabImacIwabImqbBjDxhIwceIwabImabIwccIwbbImacIwabImBjbBkBebIwabImacIwa" ++
  "bImacIwadImabIwacImabIwabImadIwabImabIwabImabIwabImabIwabImacIwGehIwabImabIwjbImyeIwbjIwbdIwb" ++
  "fIwBrdImCibIwadImaeIwBqfIwafImaoIwbbImacIwabImacIwabImadIwadImabBbabBcabBdadIwabImacIwacImafI" ++
  "wCibhqbjdbIwabImacIwDzbhqbjBwbIwCjbhqbjEgbhqbjEgbhqbjExbjEgbhqbjhbDgabDnDxbhqbjEfcjqbjEubjEfc" ++
  "DzabjneEdEecEoabjneEsCycImBbbImbbImbbIiCdbEzabFabbFcfeFacbFabcIwabjbcIwCkbImEibhbcjDebImBBrdI" ++
  "wBKmcjBebjGbbjkbIwHvbIuFnbIoabIwabImIlbIwabImCtbjuiIwcbImBwfIwagImacIwabImbcImacIwacImafIwabI" ++
  "maeIwDxbhpbjBmbIwabImahIwCccjCgbhlcjCpbhFwdIwbbbafImacIwaeImabIwbhbebImgbIwdcIwHqcIwabImahIwa" ++
  "bImacIwabJaabIgabImabHuaBlIwabIyacIuabImabIkabIwabIzabImabIwabImBBscIwacbaeIwadbacIwebIwdcbab" ++
  "IwabImabIwacbaeImabIwEOcdIwFlbjDsBgIwVibIkabIuabIyabIoacIqEbciBSQebIwekIwBgcIwDccIwKqbjBlbjFv" ++
  "bjBbsIwCfdImBlbjDrbhmbjJfbIwbcIwabImccIwfcIwbbIwCabjJmbjBDZsbBaBDphIwahImacIwBLlbImIsbImFtfIw" ++
  "CMsbImbbIwBobIwabbabImebjGjbIwabImWbeIwOxcIwDcdImCscImadIwabImabIwaeImBxbIwabImabIwabImHkbjBp" ++
  "bjobjCfbjabhCrdIwBwcjCkbhCybjjbhEcbjabhGwbhabjDcchqbjyhIwdfIwHxbjdbhxbIwDvbjabhJrbjabhEwbjEob" ++
  "jabhElbjKjbjabhJycjebhGabjDfbjsbjDdbjQfbjJybhbcjDdbjQjcjBCRdfbChhIwBUncgBDAybbHWocIiadbdbIsaf" ++
  "IiiiImcfIwacImBeeIwFsdIwFFfhIwbrIwchIwbcIwbfIwDwbIwGehIwOlbIwCjeIwTocIyabImabIwBMehImEfgIwabh"

/-- Closed ranges of characters that stand for a text with marks in a freer sense. The last number is
three times how many marks that text starts with, and how many it ends with. -/
def hiddenMarks : List (Nat × Nat × Nat) := triples <| unpack <|
  "GmGmbGtGtbGyGybHcHcbRkRmbBCaBCfbBIgBIgbBIqBIqbFWhFWhcFWjFWjcMAnMAnbMApMAqbMDaMDabMDzMDzbMFmMF" ++
  "mbSKpSKqbSQlSQleSQnSQoeSQsSQxeSRnSSheTCoTDebTIiTIibTIlTIlbTIuTIubTJiTJibTJlTJlbTKcTKcbTKlTKlb" ++
  "TKqTKqbTLbTLbbTLeTLebDRHsDRHtbDRIeDRIfbDROtDROvbDROwDRPbcDRQuDRQubDRTpDRTpbDRUoDRUqcDRXkDRXlb" ++
  "DSHtDSHwbDSJgDSJibDSJkDSJkbDSJmDSJvbDSJxDSKibDSOjDSOobDSUwDSUxeDSVbDSVbeDSVdDSVeeDSViDSVneDSW" ++
  "gDSWleDSWoDSWteDSWwDSXbeDSXeDSXgeDSXnDSXnbHGQdHGQdb"

end Qirc.Text
